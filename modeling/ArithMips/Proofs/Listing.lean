import ArithMips.Proofs.Declarations
import ArithMips.Proofs.Printing
import ArithMips.Proofs.ReadBack
import ArithMips.Proofs.Records
import ArithMips.Report.Listing
import Mathlib.Data.List.DropRight

/-!
# Listings read back

A listing says everything that it was made from (`Listing.read_render`).  Its lines are found by the line feeds, and the
first empty one ends the data section.  In a line of the data section the name ends at the first blank.  In a line of
the text section the last eight characters are the word, and the blanks before its mark are padding.

For this no name may hold a space character, and no assembly may hold one but blanks, nor end with a blank.  Both follow
from how a declaration is read, which ends its name at the first space (`Statement.unspaced_of_parse`): the names in the
code of a program are names of its table (`Compilation.Unspaced.process`), and an instruction ends with a register, a
number or a parenthesis.
-/

namespace ArithMips

open Mips (Instruction Record)

/-! ### Texts within a line -/

namespace Text

/-- Whether a text is not empty and has no space in it. -/
structure Unspaced (s : Text) : Prop where
  ne_nil : s ≠ []
  not_isSpace : ∀ c ∈ s, isSpace c = false

/-- Whether the only spaces in a text are blanks, and it does not end with one. -/
structure Inline (s : Text) : Prop where
  blank : ∀ c ∈ s, isSpace c = true → c = ' '
  ending : ∃ init last, s = init ++ [last] ∧ isSpace last = false

theorem Unspaced.append {s t : Text} (hs : s.Unspaced) (ht : t.Unspaced) : (s ++ t).Unspaced := by
  refine ⟨by simp [hs.ne_nil], fun c hc => ?_⟩
  rcases List.mem_append.1 hc with hc | hc
  · exact hs.not_isSpace c hc
  · exact ht.not_isSpace c hc

private theorem unspaced_singleton {c : Char} (h : isSpace c = false) : Unspaced [c] :=
  ⟨List.cons_ne_nil c [], fun d hd => by rw [List.mem_singleton.1 hd, h]⟩

private theorem Unspaced.inline {s : Text} (h : s.Unspaced) : s.Inline := by
  refine ⟨fun c hc hspace => ?_, s.dropLast, s.getLast h.ne_nil, (List.dropLast_append_getLast h.ne_nil).symm,
    h.not_isSpace _ (List.getLast_mem h.ne_nil)⟩
  rw [h.not_isSpace c hc] at hspace
  cases hspace

theorem Inline.append_left {s t : Text} (hs : ∀ c ∈ s, isSpace c = true → c = ' ') (ht : t.Inline) :
    (s ++ t).Inline := by
  obtain ⟨init, last, rfl, hlast⟩ := ht.ending
  refine ⟨fun c hc => ?_, s ++ init, last, (List.append_assoc _ _ _).symm, hlast⟩
  rcases List.mem_append.1 hc with hc | hc
  · exact hs c hc
  · exact ht.blank c hc

private theorem Inline.lineFeed_notMem {s : Text} (h : s.Inline) : '\n' ∉ s := fun hmem =>
  absurd (h.blank '\n' hmem (by decide)) (by decide)

/-- Padding can be taken away again. -/
private theorem Inline.rdropWhile_padRight {s : Text} (h : s.Inline) (width : Nat) :
    (padRight width s).rdropWhile (· = ' ') = s := by
  obtain ⟨init, last, rfl, hlast⟩ := h.ending
  rw [padRight]
  generalize width - (init ++ [last]).length = n
  induction n with
  | zero =>
    have hne : last ≠ ' ' := by
      rintro rfl
      cases hlast
    rw [List.replicate_zero, List.append_nil, List.rdropWhile_concat_neg _ _ _ (by simpa using hne)]
  | succ n ih =>
    rw [List.replicate_succ', ← List.append_assoc, List.rdropWhile_concat_pos _ _ _ (by simp), ih]

private theorem unspaced_decimal (n : Nat) : (decimal n).Unspaced := by
  obtain ⟨hne, hdigits⟩ := isDigits_iff.1 (isDigits_decimal n)
  exact ⟨hne, fun c hc => not_isSpace_of_isWordChar (isWordChar_of_isDigit (hdigits c hc))⟩

private theorem unspaced_signedDecimal (z : Int) : (signedDecimal z).Unspaced := by
  rw [signedDecimal]
  split
  · exact (unspaced_singleton (c := '-') (by decide)).append (unspaced_decimal _)
  · exact unspaced_decimal _

theorem IsNumeral.unspaced {base width n : Nat} {s : Text} (h : IsNumeral base width n s) (hwidth : 0 < width) :
    s.Unspaced := by
  have hall : digitAlphabet.all (!isSpace ·) = true := by decide
  refine ⟨List.ne_nil_of_length_pos (by rw [h.length_eq]; exact hwidth), fun c hc => ?_⟩
  simpa using List.all_eq_true.1 hall c (List.mem_of_mem_take (h.digits c hc))

/-- The number that decimal digits write, a `-` in front of them included. -/
def signedValue : Text → Int
  | '-' :: digits => -(decimalValue digits : Int)
  | digits => decimalValue digits

private theorem signedValue_signedDecimal (z : Int) : signedValue (signedDecimal z) = z := by
  have hvalue : ∀ n, decimalValue (decimal n) = n := fun n => Nat.ofDigitChars_ten_toDigits
  rw [signedDecimal]
  split
  · next hneg =>
    rw [signedValue, hvalue]
    omega
  · next hpos =>
    have hminus : ∀ digits, decimal z.natAbs ≠ '-' :: digits := by
      intro digits heq
      have hdigit := (isDigits_iff.1 (isDigits_decimal z.natAbs)).2 '-' (by rw [heq]; exact List.mem_cons_self)
      cases hdigit
    rw [signedValue, hvalue]
    · omega
    · exact hminus

end Text

/-! ### Assembly -/

namespace Mips

private theorem Register.unspaced_text (r : Register) : r.text.Unspaced :=
  (Text.unspaced_singleton (c := 'r') (by decide)).append (Text.unspaced_decimal _)

namespace Instruction

/-- The name of a variable in an instruction. -/
def symbol? : Instruction → Option Text
  | .immediate _ _ _ (.symbol name _) => some name
  | _ => none

private theorem unspaced_immediate {op : ImmediateOp} {rs rt : Register} {imm : Immediate}
    (h : ∀ x ∈ (immediate op rs rt imm).symbol?, x.Unspaced) : imm.text.Unspaced := by
  cases imm with
  | value v => exact Text.unspaced_signedDecimal _
  | symbol name offset => exact h name rfl

private theorem unspaced_of_mem_operands {i : Instruction} (h : ∀ x ∈ i.symbol?, x.Unspaced) :
    ∀ s ∈ i.operands, s.Unspaced := by
  have haddress : ∀ {imm : Immediate}, imm.text.Unspaced → ∀ rs : Register, (address imm rs).Unspaced :=
    fun himm rs => (himm.append ((Text.unspaced_singleton (c := '(') (by decide)).append rs.unspaced_text)).append
      (Text.unspaced_singleton (c := ')') (by decide))
  cases i with
  | register op rs rt rd =>
    intro s hs
    cases op <;> simp only [operands, List.mem_cons, List.not_mem_nil, or_false] at hs <;>
      rcases hs with rfl | rfl | rfl <;> exact Register.unspaced_text _
  | immediate op rs rt imm =>
    have himm := unspaced_immediate h
    intro s hs
    cases op <;> simp only [operands, List.mem_cons, List.not_mem_nil, or_false] at hs
    · rcases hs with rfl | rfl | rfl
      · exact rt.unspaced_text
      · exact rs.unspaced_text
      · exact himm
    · rcases hs with rfl | rfl
      · exact rt.unspaced_text
      · exact haddress himm rs
    · rcases hs with rfl | rfl
      · exact rt.unspaced_text
      · exact haddress himm rs

private theorem inline_operandList {operands : List Text} (hne : operands ≠ []) (h : ∀ s ∈ operands, s.Unspaced) :
    (operandList operands).Inline := by
  induction operands with
  | nil => exact absurd rfl hne
  | cons s rest ih =>
    have hs := (h s List.mem_cons_self).inline
    cases rest with
    | nil => simpa [operandList] using hs
    | cons t rest =>
      have hrest := ih (List.cons_ne_nil t rest) fun u hu => h u (List.mem_cons_of_mem _ hu)
      rw [operandList, List.intercalate_cons_cons]
      refine hrest.append_left fun c hc hspace => ?_
      rcases List.mem_append.1 hc with hc | hc
      · exact hs.blank c hc hspace
      · rcases List.mem_cons.1 hc with rfl | hc
        · cases hspace
        · exact List.mem_singleton.1 hc

theorem inline_assembly {i : Instruction} (h : ∀ x ∈ i.symbol?, x.Unspaced) : i.assembly.Inline := by
  have hmnemonic : i.mnemonic.all (!Text.isSpace ·) = true := by
    rcases i with ⟨_ | _ | _ | _ | _, rs, rt, rd⟩ | ⟨_ | _ | _, rs, rt, imm⟩ <;> rfl
  have hne : i.operands ≠ [] := by
    rcases i with ⟨_ | _ | _ | _ | _, rs, rt, rd⟩ | ⟨_ | _ | _, rs, rt, imm⟩ <;> exact List.cons_ne_nil _ _
  rw [assembly, ← List.singleton_append, ← List.append_assoc]
  refine (inline_operandList hne (unspaced_of_mem_operands h)).append_left fun c hc hspace => ?_
  rcases List.mem_append.1 hc with hc | hc
  · have hword := List.all_eq_true.1 hmnemonic c hc
    rw [hspace] at hword
    cases hword
  · exact List.mem_singleton.1 hc

end Instruction

end Mips

/-! ### Lines -/

namespace Listing

/-- A line of the data section, without its end. -/
def symbolText (name : Text) (offset : Int) : Text := "  # ".toList ++ placement name offset

/-- A line of the text section, without its end. -/
def recordText (r : Record) : Text :=
  "  ".toList ++ Text.padRight assemblyWidth r.assembly ++ " # 0x".toList ++ r.hex

/-- The lines of a listing. -/
def lines (symbols : List (Text × Int)) (records : List Record) : List Text :=
  ".data".toList :: symbols.map (fun p => symbolText p.1 p.2) ++ [] :: ".text".toList :: records.map recordText

private theorem render_eq (symbols : List (Text × Int)) (records : List Record) :
    render symbols records = (lines symbols records).flatMap (· ++ ['\n']) := by
  have hsymbols : symbols.flatMap (fun p => symbolLine p.1 p.2) =
      (symbols.map fun p => symbolText p.1 p.2).flatMap (· ++ ['\n']) := by
    rw [List.flatMap_map]
    rfl
  have hrecords : records.flatMap recordLine = (records.map recordText).flatMap (· ++ ['\n']) := by
    rw [List.flatMap_map]
    rfl
  have hdata : ".data\n".toList = ".data".toList ++ ['\n'] := rfl
  have htext : "\n.text\n".toList = '\n' :: (".text".toList ++ ['\n']) := rfl
  show ".data\n".toList ++ symbols.flatMap (fun p => symbolLine p.1 p.2) ++ "\n.text\n".toList ++
    records.flatMap recordLine = _
  rw [lines, hsymbols, hrecords, hdata, htext]
  generalize ".data".toList = data
  generalize ".text".toList = text
  simp

/-- Lines that end with line feeds and have no others are found by them. -/
private theorem splitOn_flatMap {lines : List Text} (h : ∀ l ∈ lines, '\n' ∉ l) :
    (lines.flatMap (· ++ ['\n'])).splitOn '\n' = lines ++ [[]] := by
  induction lines with
  | nil => rfl
  | cons l rest ih =>
    rw [List.flatMap_cons, List.append_assoc, List.singleton_append, List.splitOn_append_cons_self,
      List.splitOn_eq_singleton (h l List.mem_cons_self), ih fun m hm => h m (List.mem_cons_of_mem _ hm)]
    rfl

/-! ### Reading -/

/-- The name and the offset in a line of the data section.  The name ends at the first blank. -/
def readSymbol (line : Text) : Text × Int :=
  let rest := line.drop "  # ".toList.length
  (rest.takeWhile (· ≠ ' '), Text.signedValue ((rest.dropWhile (· ≠ ' ')).drop " offset --> ".toList.length))

/-- The assembly and the word in a line of the text section.  The word has eight digits, and blanks before its mark are
padding. -/
def readRecord (line : Text) : Text × Text :=
  let (shown, hex) := line.splitAt (line.length - 8)
  let padded := (shown.take (shown.length - " # 0x".toList.length)).drop "  ".toList.length
  (padded.rdropWhile (· = ' '), hex)

/-- The names and offsets, and the assemblies and words, in a listing.  The data section starts behind the first line
and ends at the first empty one; the text section starts one line later. -/
def read (listing : Text) : List (Text × Int) × List (Text × Text) :=
  let lines := (listing.splitOn '\n').tail
  let symbols := lines.takeWhile (· ≠ [])
  let records := ((lines.dropWhile (· ≠ [])).drop 2).takeWhile (· ≠ [])
  (symbols.map readSymbol, records.map readRecord)

private theorem readSymbol_symbolText {name : Text} (h : name.Unspaced) (offset : Int) :
    readSymbol (symbolText name offset) = (name, offset) := by
  have hname : ∀ c ∈ name, decide (c ≠ ' ') = true := by
    intro c hc
    have hspace := h.not_isSpace c hc
    simp only [decide_eq_true_eq]
    rintro rfl
    cases hspace
  obtain ⟨htake, hdrop⟩ := Text.takeWhile_append_of_head hname
    (s := " offset --> ".toList ++ Text.signedDecimal offset) (by simp)
  unfold readSymbol symbolText placement
  rw [List.drop_left, List.append_assoc]
  dsimp only
  rw [htake, hdrop, List.drop_left, Text.signedValue_signedDecimal]

private theorem readRecord_recordText {r : Record} (h : r.assembly.Inline) (hhex : r.hex.length = 8) :
    readRecord (recordText r) = (r.assembly, r.hex) := by
  have hwidth : (recordText r).length - 8 =
      ("  ".toList ++ Text.padRight assemblyWidth r.assembly ++ " # 0x".toList).length := by
    unfold recordText
    rw [List.length_append, hhex, Nat.add_sub_cancel]
  rw [readRecord, hwidth, List.splitAt_eq]
  unfold recordText
  rw [List.take_left, List.drop_left]
  dsimp only
  rw [List.length_append, Nat.add_sub_cancel, List.take_left, List.drop_left, h.rdropWhile_padRight]

private theorem inline_symbolText {name : Text} (h : name.Unspaced) (offset : Int) :
    (symbolText name offset).Inline := by
  have hmark : ("  # ".toList.all fun c => !Text.isSpace c || c = ' ') = true := rfl
  have hoffset : (" offset --> ".toList.all fun c => !Text.isSpace c || c = ' ') = true := rfl
  unfold symbolText placement
  rw [← List.append_assoc]
  refine (Text.unspaced_signedDecimal offset).inline.append_left fun c hc hspace => ?_
  rcases List.mem_append.1 hc with hc | hc
  · simpa [hspace] using List.all_eq_true.1 hmark c hc
  · rcases List.mem_append.1 hc with hc | hc
    · exact h.inline.blank c hc hspace
    · simpa [hspace] using List.all_eq_true.1 hoffset c hc

private theorem inline_recordText {r : Record} (h : r.assembly.Inline) (hhex : r.hex.Unspaced) :
    (recordText r).Inline := by
  have hmark : (" # 0x".toList.all fun c => !Text.isSpace c || c = ' ') = true := rfl
  unfold recordText
  refine hhex.inline.append_left fun c hc hspace => ?_
  rcases List.mem_append.1 hc with hc | hc
  · rcases List.mem_append.1 hc with hc | hc
    · exact List.eq_of_mem_replicate (n := 2) hc
    · rcases List.mem_append.1 hc with hc | hc
      · exact h.blank c hc hspace
      · exact List.eq_of_mem_replicate hc
  · simpa [hspace] using List.all_eq_true.1 hmark c hc

/-- A listing of names without spaces and of assemblies within a line can be read back. -/
theorem read_render {symbols : List (Text × Int)} {records : List Record} (hsymbols : ∀ p ∈ symbols, p.1.Unspaced)
    (hrecords : ∀ r ∈ records, r.assembly.Inline) (hhex : ∀ r ∈ records, r.hex.Unspaced ∧ r.hex.length = 8) :
    (render symbols records).splitOn '\n' = lines symbols records ++ [[]] ∧
      read (render symbols records) = (symbols, records.map fun r => (r.assembly, r.hex)) := by
  have hsymbolLines : ∀ l ∈ symbols.map (fun p => symbolText p.1 p.2), l.Inline := by
    intro l hl
    obtain ⟨p, hp, rfl⟩ := List.mem_map.1 hl
    exact inline_symbolText (hsymbols p hp) p.2
  have hrecordLines : ∀ l ∈ records.map recordText, l.Inline := by
    intro l hl
    obtain ⟨r, hr, rfl⟩ := List.mem_map.1 hl
    exact inline_recordText (hrecords r hr) (hhex r hr).1
  have hsplit : (render symbols records).splitOn '\n' = lines symbols records ++ [[]] := by
    rw [render_eq]
    refine splitOn_flatMap fun l hl => ?_
    rcases List.mem_append.1 hl with hl | hl
    · rcases List.mem_cons.1 hl with rfl | hl
      · decide
      · exact (hsymbolLines l hl).lineFeed_notMem
    · rcases List.mem_cons.1 hl with rfl | hl
      · exact List.not_mem_nil
      · rcases List.mem_cons.1 hl with rfl | hl
        · decide
        · exact (hrecordLines l hl).lineFeed_notMem
  refine ⟨hsplit, ?_⟩
  have hne : ∀ {l : Text}, l.Inline → decide (l ≠ []) = true := by
    rintro l hl
    obtain ⟨init, last, rfl, -⟩ := hl.ending
    simp
  have htail : (lines symbols records ++ [[]]).tail =
      symbols.map (fun p => symbolText p.1 p.2) ++ [] :: ".text".toList :: (records.map recordText ++ [[]]) := by
    simp [lines]
  obtain ⟨htake, hdrop⟩ := Text.takeWhile_append_of_head (p := fun l : Text => decide (l ≠ []))
    (fun l hl => hne (hsymbolLines l hl))
    (s := [] :: ".text".toList :: (records.map recordText ++ [[]])) (by simp)
  obtain ⟨htake', -⟩ := Text.takeWhile_append_of_head (p := fun l : Text => decide (l ≠ []))
    (fun l hl => hne (hrecordLines l hl)) (s := [[]]) (by simp)
  unfold read
  rw [hsplit, htail]
  dsimp only
  rw [htake, hdrop, List.drop_succ_cons, List.drop_succ_cons, List.drop_zero, htake', List.map_map, List.map_map]
  refine Prod.ext ?_ (List.map_congr_left fun r hr => readRecord_recordText (hrecords r hr) (hhex r hr).2)
  refine (List.map_congr_left fun p hp => ?_).trans (List.map_id symbols)
  exact readSymbol_symbolText (hsymbols p hp) p.2

end Listing

/-! ### Names in code -/

theorem Statement.unspaced_of_parse {limits : Limits} {s x e : Text} (h : parse limits s = .ok (.declaration x e)) :
    x.Unspaced := by
  obtain ⟨gap, passed, value, hcut⟩ := exists_cut h
  refine ⟨?_, hcut.name_space⟩
  rintro rfl
  cases (startsName_of_parse h).1

section Plan

variable {symbols : SymbolTable} (hnames : ∀ p ∈ symbols.layout, p.1.Unspaced)

include hnames

private theorem SymbolTable.unspaced_of_find? {x : Text} {v : Variable} (h : symbols.find? x = some v) :
    x.Unspaced := by
  obtain ⟨hmem, hname⟩ := mem_of_find?_eq_some h
  exact hname ▸ hnames (v.name, v.offset) (List.mem_map.2 ⟨v, hmem, rfl⟩)

/-- The only names in the code of a plan are those of the table. -/
private theorem unspaced_of_plan {r : UInt32} {tokens : List Token} {stack : List Operand} {i : Instruction}
    (hi : i ∈ (plan symbols r tokens stack).code) : ∀ x ∈ i.symbol?, x.Unspaced := by
  induction tokens generalizing r stack with
  | nil => rcases stack with _ | ⟨o, _ | ⟨o', stack⟩⟩ <;> cases hi
  | cons t rest ih =>
    rcases hl : lowerToken symbols ⟨r⟩ t stack with err | l
    · rw [plan_cons_of_error hl] at hi
      cases hi
    · rw [plan_cons_of_ok hl] at hi
      rcases List.mem_append.1 hi with hi | hi
      · rcases lowerToken_cases hl with ⟨value, -, rfl⟩ | ⟨name, v, -, hv, rfl⟩ | ⟨op, right, left, _, -, -, rfl⟩
        · rw [List.mem_singleton.1 hi]
          rintro x ⟨⟩
        · rw [List.mem_singleton.1 hi]
          rintro x ⟨⟩
          exact SymbolTable.unspaced_of_find? hnames hv
        · cases op <;> simp only [Operator.code, List.mem_cons, List.not_mem_nil, or_false] at hi <;>
            rcases hi with rfl | rfl <;> rintro x ⟨⟩
      · exact ih hi

end Plan

private theorem unspaced_of_storeCode {o : Operand} {name : Text} (hname : name.Unspaced) {offset : Int64}
    {i : Instruction} (hi : i ∈ o.storeCode name offset) : ∀ x ∈ i.symbol?, x.Unspaced := by
  rcases List.mem_append.1 hi with hi | hi
  · split at hi
    · cases hi
    · rw [List.mem_singleton.1 hi]
      rintro x ⟨⟩
  · rw [List.mem_singleton.1 hi]
    rintro x ⟨⟩
    exact hname

namespace Compilation

/-- Whether no name in the table or in the code has a space. -/
structure Unspaced (c : Compilation) : Prop where
  names : ∀ p ∈ c.symbols.layout, p.1.Unspaced
  code : ∀ i ∈ c.code.toList, ∀ x ∈ i.symbol?, x.Unspaced

theorem Unspaced.process {c : Compilation} (h : c.Unspaced) (s : Text) : (c.process s).Unspaced := by
  have hnames : ∀ p ∈ (c.process s).symbols.layout, p.1.Unspaced :=
    forall_layout_process h.names fun x e hparse => Statement.unspaced_of_parse hparse
  refine ⟨hnames, fun i hi => ?_⟩
  rw [layout_process] at hnames
  rw [code_process] at hi
  rcases List.mem_append.1 hi with hi | hi
  · exact h.code i hi
  · obtain ⟨-, hcases⟩ := Effect.cases c.options c.symbols s (c.effect s) rfl
    replace hi := List.mem_of_mem_take hi
    rcases hcases with ⟨hcode, -⟩ | ⟨tokens, -, ⟨hcode, -⟩ | ⟨o, name, v, -, hv, hcode, -⟩⟩
    · rw [hcode] at hi
      cases hi
    · rw [hcode] at hi
      exact unspaced_of_plan hnames hi
    · rw [hcode] at hi
      rcases List.mem_append.1 hi with hi | hi
      · exact unspaced_of_plan hnames hi
      · exact unspaced_of_storeCode (SymbolTable.unspaced_of_find? hnames hv) hi

theorem Unspaced.processAll {c : Compilation} (h : c.Unspaced) (statements : List Text) :
    (c.processAll statements).Unspaced := by
  induction statements generalizing c with
  | nil => exact h
  | cons s rest ih => exact ih (h.process s)

private theorem unspaced_ofProgram (options : Options) (program : Text) : (ofProgram options program).Unspaced := by
  rw [ofProgram_eq]
  apply Unspaced.processAll
  constructor
  · rw [symbols_opening]
    intro p hp
    cases hp
  · rw [code_opening]
    intro i hi
    cases hi

theorem Unspaced.listing {c : Compilation} (h : c.Unspaced) :
    c.listing.splitOn '\n' = Listing.lines c.placements c.records ++ [[]] ∧
      Listing.read c.listing = (c.placements, c.records.map fun r => (r.assembly, r.hex)) := by
  refine Listing.read_render (fun p hp => ?_) (fun r hr => ?_) (fun r hr => ?_)
  · obtain ⟨v, hv, rfl⟩ := List.mem_map.1 hp
    exact h.names (v.name, v.offset) (List.mem_map.2 ⟨v, hv, rfl⟩)
  · obtain ⟨i, hi, rfl⟩ := List.mem_map.1 hr
    exact Instruction.inline_assembly (h.code i hi)
  · obtain ⟨i, -, rfl⟩ := List.mem_map.1 hr
    obtain ⟨-, hhex⟩ := i.isNumeral_record
    exact ⟨hhex.unspaced (by omega), hhex.length_eq⟩

/-- The lines of a program's listing are a head, one line for each variable, an empty line, a head, and one line for
each instruction.  Names and offsets, assemblies and words are read back from it in order, so another program with the
same listing agrees in all of them. -/
theorem read_listing (options : Options) (program : Text) :
    let c := ofProgram options program
    c.listing.splitOn '\n' =
        ".data".toList :: c.placements.map (fun p => Listing.symbolText p.1 p.2) ++
          [] :: ".text".toList :: c.records.map Listing.recordText ++ [[]] ∧
      Listing.read c.listing = (c.placements, c.records.map fun r => (r.assembly, r.hex)) ∧
      ∀ (options' : Options) (program' : Text), (ofProgram options' program').listing = c.listing →
        (ofProgram options' program').placements = c.placements ∧
          (ofProgram options' program').records.map (fun r => (r.assembly, r.hex)) =
            c.records.map fun r => (r.assembly, r.hex) := by
  intro c
  obtain ⟨hlines, hread⟩ := (unspaced_ofProgram options program).listing
  refine ⟨hlines, hread, fun options' program' heq => ?_⟩
  obtain ⟨-, hread'⟩ := (unspaced_ofProgram options' program').listing
  rw [heq, hread] at hread'
  obtain ⟨hplacements, hrecords⟩ := Prod.mk.inj hread'
  exact ⟨hplacements.symm, hrecords.symm⟩

/-- A name that looks like the marks of a listing, in two programs that differ in their space and in a semicolon. -/
theorem read_listing_marks :
    let c := ofProgram {} "int a#-->(r29)= 7; 1 - 2 / x;".toList
    let c' := ofProgram {} "int\ta#-->(r29) =7;\n1 - 2 /x".toList
    c'.listing = c.listing ∧ Listing.read c.listing =
      ([("a#-->(r29)".toList, 8)],
        [("DADDIU r1, r0, 7".toList, "64010007".toList), ("DADDU r3, r1, r0".toList, "0020182D".toList),
          ("SD r3, a#-->(r29)(r29)".toList, "FFA30008".toList), ("DADDIU r1, r0, 1".toList, "64010001".toList),
          ("DADDIU r2, r0, 2".toList, "64020002".toList)]) ∧
      c'.placements = c.placements := by
  intro c c'
  have heq : c'.listing = c.listing := by decide +kernel
  obtain ⟨-, hread, hunique⟩ := read_listing {} "int a#-->(r29)= 7; 1 - 2 / x;".toList
  exact ⟨heq, hread.trans (by decide +kernel), (hunique {} _ heq).1⟩

end Compilation

end ArithMips
