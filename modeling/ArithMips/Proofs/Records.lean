import ArithMips.Mips.Record
import ArithMips.Proofs.Encoding
import Mathlib.Data.Int.ModEq
import Mathlib.Data.List.Induction
import Mathlib.Tactic.NormNum
import Mathlib.Tactic.Ring

/-!
# What records show

The binary and the hexadecimal text of a record are numerals of fixed width for one and the same number, the word of
the instruction, whatever its registers and its immediate are (`Mips.Instruction.isNumeral_record`).  Every character of
the binary text has one byte, so it falls into its six fields without loss (`Mips.Instruction.exists_fields`).

As long as register numbers are below 32, the fields are those of the instruction (`Mips.Instruction.shownBy`): the
number that the fields write together determines each of them, since a field of `k` digits writes less than `2 ^ k`
(`Text.digitsValue_lt`).  For the same reason a word determines its instruction, up to the higher bits of the immediate
(`Mips.Instruction.word_eq_iff`).
-/

namespace ArithMips

/-! ### Numerals of fixed width -/

namespace Text

/-- The digits of all bases up to sixteen, by their values. -/
def digitAlphabet : Text := "0123456789ABCDEF".toList

/-- The number that digits write in a base, the most significant one first. -/
def digitsValue (base : Nat) (digits : Text) : Nat :=
  digits.foldl (fun n c => n * base + digitAlphabet.idxOf c) 0

/-- Whether a text writes a number with a fixed number of digits of a base. -/
structure IsNumeral (base width n : Nat) (s : Text) : Prop where
  length_eq : s.length = width
  digits : ∀ c ∈ s, c ∈ digitAlphabet.take base
  value : digitsValue base s = n

private theorem digitsValue_append_singleton (base : Nat) (s : Text) (c : Char) :
    digitsValue base (s ++ [c]) = digitsValue base s * base + digitAlphabet.idxOf c := by
  simp [digitsValue]

private theorem digitsValue_append (base : Nat) (s t : Text) :
    digitsValue base (s ++ t) = digitsValue base s * base ^ t.length + digitsValue base t := by
  induction t using List.reverseRecOn with
  | nil => simp [digitsValue]
  | append_singleton t c ih =>
    rw [← List.append_assoc, digitsValue_append_singleton, ih, digitsValue_append_singleton, List.length_append,
      List.length_singleton, Nat.pow_succ]
    ring

private theorem idxOf_lt_of_mem_take {base : Nat} {c : Char} (h : c ∈ digitAlphabet.take base) :
    digitAlphabet.idxOf c < base := by
  have hidx : digitAlphabet.idxOf c = (digitAlphabet.take base).idxOf c := by
    conv_lhs => rw [← List.take_append_drop base digitAlphabet]
    exact List.idxOf_append_of_mem h
  rw [hidx]
  exact Nat.lt_of_lt_of_le (List.idxOf_lt_length_of_mem h) (List.length_take_le _ _)

theorem digitsValue_lt {base : Nat} {s : Text} (h : ∀ c ∈ s, c ∈ digitAlphabet.take base) :
    digitsValue base s < base ^ s.length := by
  induction s using List.reverseRecOn with
  | nil => simp [digitsValue]
  | append_singleton s c ih =>
    have hs := ih fun d hd => h d (List.mem_append_left _ hd)
    have hc : digitAlphabet.idxOf c < base := idxOf_lt_of_mem_take (h c (by simp))
    rw [digitsValue_append_singleton, List.length_append, List.length_singleton, Nat.pow_succ]
    calc digitsValue base s * base + digitAlphabet.idxOf c < digitsValue base s * base + base := by omega
      _ = (digitsValue base s + 1) * base := by ring
      _ ≤ base ^ s.length * base := Nat.mul_le_mul_right base hs

private theorem upperDigit_spec {d : Nat} (h : d < 16) :
    digitAlphabet.idxOf (upperDigit d) = d ∧ upperDigit d ∈ digitAlphabet.take (d + 1) := by
  revert d
  decide

/-- A text of fixed width writes the remainder of its number by a power of the base. -/
private theorem isNumeral_fixedDigits {base : Nat} (hpos : 0 < base) (hbase : base ≤ 16) (width n : Nat) :
    IsNumeral base width (n % base ^ width) (fixedDigits base width n) := by
  induction width generalizing n with
  | zero => exact ⟨rfl, by simp [fixedDigits], by simp [fixedDigits, digitsValue, Nat.mod_one]⟩
  | succ width ih =>
    have hlt : n % base < base := Nat.mod_lt n hpos
    obtain ⟨hvalue, hmem⟩ := upperDigit_spec (d := n % base) (by omega)
    refine ⟨length_fixedDigits base _ n, fun c hc => ?_, ?_⟩
    · rw [fixedDigits] at hc
      rcases List.mem_append.1 hc with hc | hc
      · exact (ih (n / base)).digits c hc
      · rw [List.mem_singleton.1 hc]
        exact List.take_subset_take_left _ hlt hmem
    · rw [fixedDigits, digitsValue_append_singleton, (ih (n / base)).value, hvalue, Nat.pow_succ', Nat.mod_mul]
      ring

private theorem IsNumeral.utf8Size_eq_one {base width n : Nat} {s : Text} (h : IsNumeral base width n s) :
    ∀ c ∈ s, c.utf8Size = 1 := by
  have hall : digitAlphabet.all (·.utf8Size = 1) = true := by decide
  intro c hc
  simpa using List.all_eq_true.1 hall c (List.mem_of_mem_take (h.digits c hc))

/-! ### Cutting texts of one byte a character -/

private theorem cutBytes_of_utf8Size_eq_one {s : Text} (h : ∀ c ∈ s, c.utf8Size = 1) {n : Nat} (hn : n ≤ s.length) :
    cutBytes n s = some (s.take n, s.drop n) := by
  induction s generalizing n with
  | nil =>
    obtain rfl : n = 0 := Nat.le_zero.1 hn
    simp [cutBytes]
  | cons c s ih =>
    cases n with
    | zero => simp [cutBytes]
    | succ n =>
      have hrest : cutBytes n s = some (s.take n, s.drop n) :=
        ih (fun d hd => h d (List.mem_cons_of_mem _ hd)) (by simpa using hn)
      rw [cutBytes, h c (by simp), if_pos (by omega), Nat.add_sub_cancel, hrest]
      rfl

/-- Such a text falls into pieces of any widths that add up to its length. -/
private theorem exists_cutWidths {widths : List Nat} {s : Text} (h : ∀ c ∈ s, c.utf8Size = 1)
    (hsum : widths.sum = s.length) :
    ∃ pieces, cutWidths widths s = some pieces ∧ pieces.flatten = s ∧ pieces.map List.length = widths := by
  induction widths generalizing s with
  | nil =>
    have hs : s = [] := List.eq_nil_of_length_eq_zero hsum.symm
    exact ⟨[], rfl, hs.symm, rfl⟩
  | cons width widths ih =>
    rw [List.sum_cons] at hsum
    have hcut := cutBytes_of_utf8Size_eq_one h (n := width) (by omega)
    obtain ⟨pieces, hpieces, hflatten, hlengths⟩ :=
      @ih (s.drop width) (fun c hc => h c (List.mem_of_mem_drop hc)) (by rw [List.length_drop]; omega)
    refine ⟨s.take width :: pieces, ?_, ?_, ?_⟩
    · rw [cutWidths, hcut]
      simp [hpieces]
    · rw [List.flatten_cons, hflatten, List.take_append_drop]
    · rw [List.map_cons, hlengths, List.length_take, Nat.min_eq_left (by omega)]

end Text

namespace Mips

open Text (IsNumeral digitsValue)

/-! ### The fields of a record -/

private theorem RegisterOp.eq_of_funct_eq {op op' : RegisterOp} (h : op.funct.toNat = op'.funct.toNat) : op = op' := by
  have hop := Word.registerOp?_funct op
  rw [UInt32.toNat_inj.1 h, Word.registerOp?_funct] at hop
  exact (Option.some.inj hop).symm

private theorem ImmediateOp.eq_of_opcode_eq {op op' : ImmediateOp} (h : op.opcode.toNat = op'.opcode.toNat) :
    op = op' := by
  have hop := Word.immediateOp?_opcode op
  rw [UInt32.toNat_inj.1 h, Word.immediateOp?_opcode] at hop
  exact (Option.some.inj hop).symm

private theorem ImmediateOp.toNat_opcode_pos (op : ImmediateOp) : 0 < op.opcode.toNat := by
  cases op <;> decide

/-- The bits of an immediate that its field keeps. -/
private theorem Immediate.toInt_emod (imm : Immediate) :
    imm.number.toInt % 65536 = (imm.number.toUInt64.toNat % 65536 : Nat) := by
  have himm : imm.number.toInt = (imm.number.toUInt64.toNat : Int).bmod 18446744073709551616 :=
    BitVec.toInt_eq_toNat_bmod _
  rw [himm, Int.bmod_def]
  split <;> omega

namespace Instruction

/-- Whether every register number of an instruction fits in its field. -/
def RegistersFit : Instruction → Prop
  | .register _ rs rt rd => rs.number.toNat < 32 ∧ rt.number.toNat < 32 ∧ rd.number.toNat < 32
  | .immediate _ rs rt _ => rs.number.toNat < 32 ∧ rt.number.toNat < 32

instance : DecidablePred RegistersFit
  | .register .. => inferInstanceAs (Decidable (_ ∧ _ ∧ _))
  | .immediate .. => inferInstanceAs (Decidable (_ ∧ _))

/-- Whether six fields, read as binary numbers, say what the instruction is, up to the higher bits of its immediate. -/
def ShownBy : Instruction → List Text → Prop
  | .register op rs rt rd, fields =>
    fields.map (digitsValue 2) = [0, rs.number.toNat, rt.number.toNat, rd.number.toNat, 0, op.funct.toNat]
  | .immediate op rs rt imm, fields =>
    (fields.take 3).map (digitsValue 2) = [op.opcode.toNat, rs.number.toNat, rt.number.toNat] ∧
      (digitsValue 2 (fields.drop 3).flatten : Int) = imm.number.toInt % 65536

/-- Whether two instructions are the same but for immediates, which are congruent modulo `2 ^ 16`. -/
def Congruent : Instruction → Instruction → Prop
  | .register op rs rt rd, .register op' rs' rt' rd' => op = op' ∧ rs = rs' ∧ rt = rt' ∧ rd = rd'
  | .immediate op rs rt imm, .immediate op' rs' rt' imm' =>
    op = op' ∧ rs = rs' ∧ rt = rt' ∧ imm.number.toInt ≡ imm'.number.toInt [ZMOD 65536]
  | _, _ => False

theorem isNumeral_record (i : Instruction) :
    IsNumeral 2 32 i.word.toNat i.record.binary ∧ IsNumeral 16 8 i.word.toNat i.record.hex := by
  have hlt : i.word.toNat < 2 ^ 32 := UInt32.toNat_lt i.word
  have hbinary := @Text.isNumeral_fixedDigits 2 (by omega) (by omega) 32 i.word.toNat
  have hhex := @Text.isNumeral_fixedDigits 16 (by omega) (by omega) 8 i.word.toNat
  rw [Nat.mod_eq_of_lt (by omega)] at hbinary hhex
  exact ⟨hbinary, hhex⟩

theorem exists_fields (i : Instruction) :
    ∃ fields, i.record.fields? = some fields ∧ fields.flatten = i.record.binary ∧
      fields.map List.length = [6, 5, 5, 5, 5, 6] := by
  obtain ⟨hbinary, -⟩ := i.isNumeral_record
  have hsum : fieldWidths.sum = i.record.binary.length := by
    rw [hbinary.length_eq]
    rfl
  exact Text.exists_cutWidths hbinary.utf8Size_eq_one hsum

/-- The fields of a binary text write its word together, each of them as many bits of it as it has digits. -/
private theorem word_eq_of_fields {i : Instruction} {fields : List Text} (hflatten : fields.flatten = i.record.binary)
    (hlengths : fields.map List.length = [6, 5, 5, 5, 5, 6]) :
    ∃ a b c d e f : Text, fields = [a, b, c, d, e, f] ∧
      digitsValue 2 a < 64 ∧ digitsValue 2 b < 32 ∧ digitsValue 2 c < 32 ∧ digitsValue 2 d < 32 ∧
      digitsValue 2 e < 32 ∧ digitsValue 2 f < 64 ∧
      digitsValue 2 (d ++ (e ++ f)) = digitsValue 2 d * 2048 + (digitsValue 2 e * 64 + digitsValue 2 f) ∧
      i.word.toNat = digitsValue 2 a * 67108864 + (digitsValue 2 b * 2097152 + (digitsValue 2 c * 65536 +
        (digitsValue 2 d * 2048 + (digitsValue 2 e * 64 + digitsValue 2 f)))) := by
  obtain ⟨hbinary, -⟩ := i.isNumeral_record
  simp only [List.map_eq_cons_iff, List.map_eq_nil_iff] at hlengths
  obtain ⟨a, _, rfl, ha, b, _, rfl, hb, c, _, rfl, hc, d, _, rfl, hd, e, _, rfl, he, f, _, rfl, hf, rfl⟩ := hlengths
  have hbound : ∀ s ∈ [a, b, c, d, e, f], digitsValue 2 s < 2 ^ s.length := by
    intro s hs
    refine Text.digitsValue_lt fun ch hch => hbinary.digits ch ?_
    rw [← hflatten]
    exact List.mem_flatten.2 ⟨s, hs, hch⟩
  simp only [List.forall_mem_cons, ha, hb, hc, hd, he, hf] at hbound
  obtain ⟨hva, hvb, hvc, hvd, hve, hvf, -⟩ := hbound
  have hvalue := hbinary.value
  simp only [← hflatten, List.flatten_cons, List.flatten_nil, List.append_nil, Text.digitsValue_append,
    List.length_append, hb, hc, hd, he, hf] at hvalue
  refine ⟨a, b, c, d, e, f, rfl, hva, hvb, hvc, hvd, hve, hvf, ?_, by omega⟩
  rw [Text.digitsValue_append, Text.digitsValue_append, List.length_append, he, hf]
  norm_num

/-- The fields of an instruction whose registers fit show the instruction. -/
theorem shownBy {i : Instruction} (h : i.RegistersFit) {fields : List Text}
    (hflatten : fields.flatten = i.record.binary) (hlengths : fields.map List.length = [6, 5, 5, 5, 5, 6]) :
    i.ShownBy fields := by
  obtain ⟨a, b, c, d, e, f, rfl, ha, hb, hc, hd, he, hf, hlow, hvalue⟩ := word_eq_of_fields hflatten hlengths
  cases i with
  | register op rs rt rd =>
    obtain ⟨hrs, hrt, hrd⟩ := h
    have hop := op.toNat_funct_lt
    rw [toNat_word_register hrs hrt hrd op] at hvalue
    simp only [ShownBy, List.map_cons, List.map_nil, List.cons.injEq, and_true]
    omega
  | immediate op rs rt imm =>
    obtain ⟨hrs, hrt⟩ := h
    have hop := op.toNat_opcode_lt
    rw [toNat_word_immediate hrs hrt op imm] at hvalue
    simp only [ShownBy, List.take_succ_cons, List.take_zero, List.drop_succ_cons, List.drop_zero, List.map_cons,
      List.map_nil, List.flatten_cons, List.flatten_nil, List.append_nil, List.cons.injEq, and_true]
    rw [imm.toInt_emod, hlow]
    omega

/-- Among instructions whose registers fit, congruent ones have the same word, and no others have. -/
theorem word_eq_iff {i j : Instruction} (hi : i.RegistersFit) (hj : j.RegistersFit) :
    i.word = j.word ↔ i.Congruent j := by
  rw [← UInt32.toNat_inj]
  cases i with
  | register op rs rt rd =>
    obtain ⟨hrs, hrt, hrd⟩ := hi
    have hop := op.toNat_funct_lt
    rw [toNat_word_register hrs hrt hrd op]
    cases j with
    | register op' rs' rt' rd' =>
      obtain ⟨hrs', hrt', hrd'⟩ := hj
      have hop' := op'.toNat_funct_lt
      rw [toNat_word_register hrs' hrt' hrd' op']
      constructor
      · intro heq
        exact ⟨RegisterOp.eq_of_funct_eq (by omega), Register.eq_of_toNat_eq (by omega),
          Register.eq_of_toNat_eq (by omega), Register.eq_of_toNat_eq (by omega)⟩
      · rintro ⟨rfl, rfl, rfl, rfl⟩
        rfl
    | immediate op' rs' rt' imm' =>
      -- The opcode of an instruction on registers is zero, that of the other one is not.
      obtain ⟨hrs', hrt'⟩ := hj
      have hpos := op'.toNat_opcode_pos
      rw [toNat_word_immediate hrs' hrt' op' imm']
      exact ⟨fun heq => by omega, fun hfalse => hfalse.elim⟩
  | immediate op rs rt imm =>
    obtain ⟨hrs, hrt⟩ := hi
    rw [toNat_word_immediate hrs hrt op imm]
    cases j with
    | register op' rs' rt' rd' =>
      obtain ⟨hrs', hrt', hrd'⟩ := hj
      have hpos := op.toNat_opcode_pos
      have hop' := op'.toNat_funct_lt
      rw [toNat_word_register hrs' hrt' hrd' op']
      exact ⟨fun heq => by omega, fun hfalse => hfalse.elim⟩
    | immediate op' rs' rt' imm' =>
      obtain ⟨hrs', hrt'⟩ := hj
      have hfield := imm.toInt_emod
      have hfield' := imm'.toInt_emod
      rw [toNat_word_immediate hrs' hrt' op' imm']
      constructor
      · intro heq
        refine ⟨ImmediateOp.eq_of_opcode_eq (by omega), Register.eq_of_toNat_eq (by omega),
          Register.eq_of_toNat_eq (by omega), ?_⟩
        rw [Int.ModEq, hfield, hfield']
        omega
      · rintro ⟨rfl, rfl, rfl, himm⟩
        rw [Int.ModEq, hfield, hfield'] at himm
        omega

/-- The record of any instruction writes its word in 32 binary digits and in 8 hexadecimal ones, and the binary text
falls into six fields without loss.  If the registers fit, the fields show the instruction, and another instruction
whose registers fit has the same word exactly if it is congruent. -/
theorem record_faithful (i : Instruction) :
    IsNumeral 2 32 i.word.toNat i.record.binary ∧ IsNumeral 16 8 i.word.toNat i.record.hex ∧
      ∃ fields, i.record.fields? = some fields ∧ fields.flatten = i.record.binary ∧
        fields.map List.length = [6, 5, 5, 5, 5, 6] ∧
        (i.RegistersFit → i.ShownBy fields ∧
          ∀ j : Instruction, j.RegistersFit → (i.word = j.word ↔ i.Congruent j)) := by
  obtain ⟨hbinary, hhex⟩ := i.isNumeral_record
  obtain ⟨fields, hfields, hflatten, hlengths⟩ := i.exists_fields
  exact ⟨hbinary, hhex, fields, hfields, hflatten, hlengths, fun hi =>
    ⟨shownBy hi hflatten hlengths, fun j hj => word_eq_iff hi hj⟩⟩

/-- A store at a negative offset, and a larger offset with the same low bits. -/
theorem record_faithful_store :
    let i : Instruction := .immediate .sd ⟨31⟩ ⟨3⟩ (.symbol "x".toList (-8))
    let j : Instruction := .immediate .sd ⟨31⟩ ⟨3⟩ (.value 65528)
    i.RegistersFit ∧ j.RegistersFit ∧ (∃ fields, i.record.fields? = some fields ∧ i.ShownBy fields) ∧
      i.word = 0xFFE3FFF8 ∧ j.word = 0xFFE3FFF8 ∧ i.Congruent j := by
  intro i j
  have hi : i.RegistersFit := by decide
  have hj : j.RegistersFit := by decide
  obtain ⟨-, -, fields, hfields, -, -, hfit⟩ := record_faithful i
  obtain ⟨hshown, hword⟩ := hfit hi
  exact ⟨hi, hj, ⟨fields, hfields, hshown⟩, by decide, by decide, (hword j hj).1 (by decide)⟩

end Instruction

end Mips

end ArithMips
