import ArithMips.Proofs.Space

/-!
# The text of a declaration

The text of a declaration is cut into the keyword, white space, the name, a text that is passed over, the `=` and the
value (`Statement.Cut`, `Statement.exists_cut`).  The name ends at the first space, and the text that is passed over
reaches from there to the first `=`.  It need not be white, and white characters that are no space may stand in the
name.  So the keyword, the name and the expression are all that a declaration says, white characters apart, under two
conditions (`Statement.Cut.solid_eq_iff`): nothing but white characters is passed over, and none of them is in the
name.
-/

namespace ArithMips

namespace Text

/-- The text without its white characters. -/
def solid (s : Text) : Text := s.filter (!isWhite ·)

private theorem solid_append (s t : Text) : (s ++ t).solid = s.solid ++ t.solid := List.filter_append s t

private theorem solid_eq_nil_iff {s : Text} : s.solid = [] ↔ ∀ c ∈ s, isWhite c = true := by
  simp [solid]

private theorem solid_eq_self_iff {s : Text} : s.solid = s ↔ ∀ c ∈ s, isWhite c = false := by
  simp [solid]

private theorem solid_solid (s : Text) : s.solid.solid = s.solid := by
  simp [solid]

private theorem solid_reverse (s : Text) : solid s.reverse = s.solid.reverse := List.filter_reverse

private theorem solid_trimStart (s : Text) : s.trimStart.solid = s.solid := by
  have hwhite : solid (s.takeWhile isWhite) = [] := solid_eq_nil_iff.2 fun c hc => List.mem_takeWhile_imp hc
  calc s.trimStart.solid = solid (s.takeWhile isWhite) ++ s.trimStart.solid := by rw [hwhite, List.nil_append]
    _ = solid (s.takeWhile isWhite ++ s.dropWhile isWhite) := (solid_append _ _).symm
    _ = s.solid := by rw [List.takeWhile_append_dropWhile]

private theorem solid_trim (s : Text) : s.trim.solid = s.solid := by
  have hend : ∀ t : Text, t.trimEnd = (trimStart t.reverse).reverse := fun _ => rfl
  rw [trim, hend, solid_reverse, solid_trimStart, solid_reverse, List.reverse_reverse, solid_trimStart]

end Text

namespace Statement

open Text (isSpace isWhite)

private theorem afterKeyword?_eq_some {s rest : Text} (h : afterKeyword? s = some rest) :
    ∃ c t, s = 'i' :: 'n' :: 't' :: c :: t ∧ isSpace c = true ∧ rest = Text.trimStart (c :: t) := by
  unfold afterKeyword? at h
  split at h
  · split at h
    · next c t hc =>
      cases h
      exact ⟨c, t, rfl, hc, rfl⟩
    · cases h
  · cases h

/-- The name that a text behind the keyword declares, and its value, if it has a `=`. -/
theorem parseDeclaration_eq_ok {limits : Limits} {rest : Text} {d : Statement}
    (h : parseDeclaration limits rest = .ok d) :
    ∃ target value : Text, rest = target ++ '=' :: value ∧ '=' ∉ target ∧
      (target.takeWhile (!isSpace ·)).length ≤ limits.identifierLength ∧
      d = .declaration (target.takeWhile (!isSpace ·)) value.trim := by
  by_cases hrest : '=' ∈ rest
  · obtain ⟨target, value, rfl, htarget⟩ := List.eq_append_cons_of_mem hrest
    rw [parseDeclaration_append_cons htarget] at h
    split at h
    · cases h
    · split at h
      · cases h
      · next hlong =>
        cases h
        exact ⟨target, value, rfl, htarget, Nat.le_of_not_lt hlong, rfl⟩
  · rw [parseDeclaration_of_notMem hrest] at h
    cases h

theorem parse_eq_declaration {limits : Limits} {s name e : Text} (h : parse limits s = .ok (.declaration name e)) :
    ∃ rest, afterKeyword? s.trim = some rest ∧ parseDeclaration limits rest = .ok (.declaration name e) := by
  rw [parse] at h
  split at h
  · cases h
  · split at h
    · next rest hrest => exact ⟨rest, hrest, h⟩
    · cases h

/-- How the text `s` is cut when it is read as a declaration of `name` with the expression `e`. -/
structure Cut (s name e gap passed value : Text) : Prop where
  text : s.trim = "int".toList ++ gap ++ name ++ passed ++ '=' :: value
  /-- White characters stand behind the keyword, the first of them a space. -/
  gap_head : ∃ c ∈ gap.head?, isSpace c = true
  gap_white : ∀ c ∈ gap, isWhite c = true
  /-- The name ends at the first space or at the `=`, whichever comes first. -/
  name_space : ∀ c ∈ name, isSpace c = false
  passed_head : ∀ c ∈ passed.head?, isSpace c = true
  /-- The `=` is the first one. -/
  eq_notMem : '=' ∉ name ++ passed
  expression : e = value.trim

theorem exists_cut {limits : Limits} {s name e : Text} (h : parse limits s = .ok (.declaration name e)) :
    ∃ gap passed value : Text, Cut s name e gap passed value := by
  obtain ⟨rest, hkeyword, hparse⟩ := parse_eq_declaration h
  obtain ⟨c, t, hs, hc, hrest⟩ := afterKeyword?_eq_some hkeyword
  obtain ⟨target, value, htext, htarget, -, hd⟩ := parseDeclaration_eq_ok hparse
  obtain ⟨rfl, rfl⟩ := Statement.declaration.inj hd
  have htarget' : target.takeWhile (!isSpace ·) ++ target.dropWhile (!isSpace ·) = target :=
    List.takeWhile_append_dropWhile
  refine ⟨(c :: t).takeWhile isWhite, target.dropWhile (!isSpace ·), value, ?_, ?_, ?_, ?_, ?_, ?_, rfl⟩
  · have hbehind : c :: t = (c :: t).takeWhile isWhite ++ (target ++ '=' :: value) := by
      rw [← htext, hrest]
      exact List.takeWhile_append_dropWhile.symm
    rw [hs, List.append_assoc _ (target.takeWhile _), htarget', List.append_assoc, List.append_assoc, ← hbehind]
    rfl
  · exact ⟨c, by rw [List.takeWhile_cons_of_pos (Text.isWhite_of_isSpace hc)]; rfl, hc⟩
  · exact fun d hd => List.mem_takeWhile_imp hd
  · intro d hd
    simpa using List.mem_takeWhile_imp hd
  · intro d hd
    have hhead := List.head?_dropWhile_not (!isSpace ·) target
    rw [hd] at hhead
    simpa using hhead
  · rwa [htarget']

namespace Cut

variable {s name e gap passed value : Text}

/-- White characters apart, the text is the keyword, the name, what is passed over, the `=` and the expression. -/
theorem solid_eq (h : Cut s name e gap passed value) :
    s.solid = "int".toList ++ name.solid ++ passed.solid ++ '=' :: e.solid := by
  have hgap : gap.solid = [] := Text.solid_eq_nil_iff.2 h.gap_white
  have hvalue : Text.solid ('=' :: value) = '=' :: e.solid := by
    rw [h.expression, Text.solid_trim]
    rfl
  calc s.solid = Text.solid ("int".toList ++ gap ++ name ++ passed ++ '=' :: value) := by rw [← h.text, Text.solid_trim]
    _ = Text.solid "int".toList ++ gap.solid ++ name.solid ++ passed.solid ++ Text.solid ('=' :: value) := by
      simp only [Text.solid_append]
    _ = "int".toList ++ name.solid ++ passed.solid ++ '=' :: e.solid := by
      rw [hgap, hvalue, List.append_nil]
      rfl

/-- The keyword, the name and the expression are the whole text, white characters apart, if and only if nothing but
white characters is passed over and none of them is in the name. -/
theorem solid_eq_iff (h : Cut s name e gap passed value) :
    s.solid = "int".toList ++ name ++ '=' :: e.solid ↔
      (∀ c ∈ passed, isWhite c = true) ∧ ∀ c ∈ name, isWhite c = false := by
  rw [h.solid_eq, List.append_cancel_right_eq, List.append_assoc, List.append_cancel_left_eq, ← Text.solid_eq_nil_iff,
    ← Text.solid_eq_self_iff]
  constructor
  · intro heq
    -- No white character is on the left, so none is in the name.
    have hname : name.solid = name := by
      rw [← heq, Text.solid_append, Text.solid_solid, Text.solid_solid]
    rw [hname] at heq
    exact ⟨List.append_right_eq_self.1 heq, hname⟩
  · rintro ⟨hpassed, hname⟩
    rw [hpassed, hname, List.append_nil]

end Cut

/-- A declaration is cut out of its text as `Cut` says, and so it may pass over text.  The keyword, the name and the
expression are the whole text, white characters apart, exactly if only white characters stand between the name and the
first `=` and the name has none. -/
theorem solid_of_declaration {limits : Limits} {s name e : Text} (h : parse limits s = .ok (.declaration name e)) :
    ∃ gap passed value : Text, Cut s name e gap passed value ∧
      s.solid = "int".toList ++ name.solid ++ passed.solid ++ '=' :: e.solid ∧
      (s.solid = "int".toList ++ name ++ '=' :: e.solid ↔
        (∀ c ∈ passed, isWhite c = true) ∧ ∀ c ∈ name, isWhite c = false) := by
  obtain ⟨gap, passed, value, hcut⟩ := exists_cut h
  exact ⟨gap, passed, value, hcut, hcut.solid_eq, hcut.solid_eq_iff⟩

/-- A declaration with white characters of both kinds around its parts. -/
theorem solid_of_declaration_spaced :
    let s : Text := "\u00a0int\t\u2003a1 \u00a0= b *\n2\u3000".toList
    parse {} s = .ok (.declaration "a1".toList "b *\n2".toList) ∧
      ∃ gap passed value : Text, Cut s "a1".toList "b *\n2".toList gap passed value ∧
        ∀ c ∈ passed, isWhite c = true := by
  intro s
  have hparse : parse {} s = .ok (.declaration "a1".toList "b *\n2".toList) := by decide +kernel
  obtain ⟨gap, passed, value, hcut, -, hiff⟩ := solid_of_declaration hparse
  exact ⟨hparse, gap, passed, value, hcut, (hiff.1 (by decide +kernel)).1⟩

/-- A declaration of `a` that passes over a word. -/
theorem declaration_passes_word :
    let s : Text := "int a b = 3".toList
    parse {} s = .ok (.declaration "a".toList "3".toList) ∧
      s.solid ≠ "int".toList ++ "a".toList ++ '=' :: Text.solid "3".toList := by
  decide +kernel

/-- A white character that is no space belongs to the name. -/
example : parse {} "int x\u00a0= 1".toList = .ok (.declaration "x\u00a0".toList "1".toList) := by decide +kernel

end Statement

end ArithMips
