import ArithMips.Proofs.SymbolTable
import Mathlib.Data.List.Induction

/-!
# Histories of symbol tables

A table is declared names, asked for variables and given values, in any order (`SymbolTable.Request`).  What it answers
to a lookup is determined by the events so far: by the first declaration of the name that succeeded, and by the last
value that was written (`SymbolTable.find?_after`).

A table with an index does not search its variables for a name, it keeps a hash map from names to positions
(`SymbolTable.Indexed`).  The index holds the names of the variables and nothing else, each with its position, after
every history (`SymbolTable.Represents`), so both tables give the same answers (`SymbolTable.Represents.run`).
-/

namespace ArithMips

namespace SymbolTable

/-! ### Requests -/

/-- What is asked of a table.  A declaration may write a value to the variable that it answers. -/
inductive Request where
  | declare (name : Text) (value : Option Int64)
  | find (name : Text)
  | assign (name : Text) (value : Int64)
  deriving DecidableEq, Repr

/-- The variable of the name, as it was before a value is written, or the error of a declaration. -/
abbrev Answer := Except Error (Option Variable)

/-- A request with its answer. -/
structure Event where
  request : Request
  answer : Answer

namespace Event

/-- The variable that the event declares under a name, as the declaration answers it. -/
def declared? (event : Event) (x : Text) : Option Variable :=
  match event.request, event.answer with
  | .declare y _, .ok v => if y = x then v else none
  | _, _ => none

/-- The value that the event writes to the variable of a name. -/
def written? (event : Event) (x : Text) : Option Int64 :=
  match event.request, event.answer with
  | .declare y value, .ok _ => if y = x then value else none
  | .assign y value, .ok (some _) => if y = x then some value else none
  | _, _ => none

end Event

def ask (t : SymbolTable) : Request → Answer × SymbolTable
  | .declare x value =>
    match t.declare x with
    | .error e => (.error e, t)
    | .ok u => (.ok (u.find? x), value.elim u (u.assign x))
  | .find x => (.ok (t.find? x), t)
  | .assign x value => (.ok (t.find? x), t.assign x value)

section Runs

variable {σ : Type} (answer : σ → Request → Answer × σ)

/-- The state behind a history. -/
def after (s : σ) (history : List Request) : σ := history.foldl (fun s r => (answer s r).2) s

/-- The requests of a history with their answers. -/
def events : σ → List Request → List Event
  | _, [] => []
  | s, r :: history => ⟨r, (answer s r).1⟩ :: events (answer s r).2 history

private theorem events_concat (s : σ) (history : List Request) (r : Request) :
    events answer s (history ++ [r]) = events answer s history ++ [⟨r, (answer (after answer s history) r).1⟩] := by
  induction history generalizing s with
  | nil => rfl
  | cons q history ih =>
    rw [List.cons_append, events, ih]
    rfl

private theorem after_concat (s : σ) (history : List Request) (r : Request) :
    after answer s (history ++ [r]) = (answer (after answer s history) r).2 := by
  rw [after, List.foldl_append]
  rfl

end Runs

/-! ### The invariant -/

theorem WellFormed.ask {t : SymbolTable} (h : t.WellFormed) (r : Request) : (t.ask r).2.WellFormed := by
  cases r with
  | declare x value =>
    rw [SymbolTable.ask]
    rcases hd : t.declare x with e | u
    · exact h
    · cases value with
      | none => exact h.declare hd
      | some value => exact (h.declare hd).assign x value
  | find x => exact h
  | assign x value => exact h.assign x value

private theorem capacity_ask (t : SymbolTable) (r : Request) : (t.ask r).2.capacity = t.capacity := by
  cases r with
  | declare x value =>
    rw [ask]
    rcases hd : t.declare x with e | u
    · rfl
    · have hu : u.capacity = t.capacity := capacity_declare hd
      cases value with
      | none => exact hu
      | some value => exact hu
  | find x => rfl
  | assign x value => rfl

private theorem wellFormed_after (capacity : Nat) (history : List Request) :
    (after ask { capacity } history).WellFormed ∧ (after ask { capacity } history).capacity = capacity := by
  induction history using List.reverseRecOn with
  | nil => exact ⟨wellFormed_empty capacity, rfl⟩
  | append_singleton history r ih =>
    rw [after_concat]
    exact ⟨ih.1.ask r, (capacity_ask _ r).trans ih.2⟩

/-- The offset and the mark of the variable at a position. -/
private theorem WellFormed.toInt_offset {t : SymbolTable} (h : t.WellFormed) (hsize : t.size < 2 ^ 60 - 1) {i : Nat}
    {v : Variable} (hv : t.entries[i]? = some v) : v.offset.toInt = 8 * (i + 1) ∧ v.declared = true := by
  have hi : i < t.size := (List.getElem?_eq_some_iff.1 hv).1
  have hoffset : some v.offset = some (offsetAt i) := by
    have hmap := congrArg (·[i]?) h.offsets
    simpa [hv, hi] using hmap
  rw [Option.some.inj hoffset]
  exact ⟨toInt_offsetAt (by omega), h.declared v (List.mem_of_getElem? hv)⟩

/-! ### What a lookup answers -/

/-- A request declares its name if that is new, and writes to it if there is something to write. -/
private theorem find?_ask (t : SymbolTable) (r : Request) (x : Text) :
    (t.ask r).2.find? x = ((t.find? x).or (Event.declared? ⟨r, (t.ask r).1⟩ x)).map fun v =>
      { v with value := (Event.written? ⟨r, (t.ask r).1⟩ x).getD v.value } := by
  cases r with
  | declare y value =>
    rw [ask]
    rcases hd : t.declare y with e | u
    · simp [Event.declared?, Event.written?]
    · -- The name that is asked for is the declared one, or neither the declaration nor the value concerns it.
      have hfind : u.find? x = (t.find? x).or (if y = x then u.find? y else none) := by
        rcases declare_cases hd with ⟨rfl, -⟩ | ⟨rfl, hnew, -⟩
        · by_cases hy : y = x <;> simp [hy]
        · by_cases hy : y = x
          · subst hy
            simp [hnew]
          · simp [find?_add, hy]
      have hwrite : (value.elim u (u.assign y)).find? x =
          (u.find? x).map fun v => { v with value := (if y = x then value else none).getD v.value } := by
        cases value with
        | none => simp
        | some value =>
          rw [Option.elim_some, find?_assign]
          by_cases hy : y = x
          · simp [hy]
          · simp [hy, Ne.symm hy]
      simp only [Event.declared?, Event.written?]
      rw [hwrite, hfind]
  | find y => simp [ask, Event.declared?, Event.written?]
  | assign y value =>
    rw [ask, find?_assign]
    rcases hy : t.find? y with _ | w
    · rcases hx : t.find? x with _ | v
      · simp [Event.declared?]
      · have hne : x ≠ y := fun heq => by simp [← heq, hx] at hy
        simp [Event.written?, hne]
    · by_cases hyx : y = x
      · subst hyx
        simp [Event.written?, hy]
      · simp [Event.declared?, Event.written?, hyx, Ne.symm hyx]

/-- A new variable is zero, and only the variable of a declaration or of an earlier one is written to. -/
private theorem declared?_of_find?_eq_none {t : SymbolTable} {x : Text} (h : t.find? x = none) (r : Request) :
    (∀ v, Event.declared? ⟨r, (t.ask r).1⟩ x = some v → v.value = 0) ∧
      (Event.declared? ⟨r, (t.ask r).1⟩ x = none → Event.written? ⟨r, (t.ask r).1⟩ x = none) := by
  cases r with
  | declare y value =>
    rw [ask]
    rcases hd : t.declare y with e | u
    · simp [Event.declared?, Event.written?]
    · by_cases hy : y = x
      · subst hy
        rcases declare_cases hd with ⟨-, hsome⟩ | ⟨rfl, -, -⟩
        · simp [h] at hsome
        · simp [Event.declared?, find?_add, h]
      · simp [Event.declared?, Event.written?, hy]
  | find y => simp [Event.declared?, Event.written?]
  | assign y value =>
    rw [ask]
    by_cases hy : y = x
    · subst hy
      simp [h, Event.declared?, Event.written?]
    · rcases t.find? y with _ | w <;> simp [Event.declared?, Event.written?, hy]

/-- The variable that the first successful declaration of a name answered. -/
def firstDeclared (history : List Event) (x : Text) : Option Variable := history.findSome? (·.declared? x)

/-- The last value that was written to the variable of a name. -/
def lastWritten (history : List Event) (x : Text) : Option Int64 := history.reverse.findSome? (·.written? x)

private theorem firstDeclared_concat (history : List Event) (event : Event) (x : Text) :
    firstDeclared (history ++ [event]) x = (firstDeclared history x).or (event.declared? x) := by
  rw [firstDeclared, List.findSome?_append, List.findSome?_singleton]
  rfl

private theorem lastWritten_concat (history : List Event) (event : Event) (x : Text) :
    lastWritten (history ++ [event]) x = (event.written? x).or (lastWritten history x) := by
  rw [lastWritten, List.reverse_append, List.findSome?_append, List.reverse_singleton, List.findSome?_singleton]
  rfl

/-- The induction is on the history, from its end.  Nothing is written before the first declaration, or else it would
show in the variable. -/
theorem find?_after (capacity : Nat) (history : List Request) (x : Text) :
    let past := events ask { capacity } history
    (after ask { capacity } history).find? x =
        (firstDeclared past x).map (fun v => { v with value := (lastWritten past x).getD 0 }) ∧
      (firstDeclared past x = none → lastWritten past x = none) := by
  induction history using List.reverseRecOn with
  | nil => exact ⟨rfl, fun _ => rfl⟩
  | append_singleton history r ih =>
    dsimp only at ih ⊢
    rw [after_concat, events_concat, find?_ask, firstDeclared_concat, lastWritten_concat]
    obtain ⟨hfind, hunwritten⟩ := ih
    rcases hd : firstDeclared (events ask { capacity } history) x with _ | v <;> rw [hd] at hfind
    · -- The name is new, or it is still unknown.
      rw [Option.map_none] at hfind
      obtain ⟨hzero, hnothing⟩ := declared?_of_find?_eq_none hfind r
      rw [hfind, hunwritten hd, Option.none_or, Option.or_none]
      refine ⟨Option.map_congr fun v hv => ?_, hnothing⟩
      rw [hzero v hv]
    · rw [hfind]
      refine ⟨?_, fun h => by simp at h⟩
      rcases Event.written? ⟨r, ((after ask { capacity } history).ask r).1⟩ x with _ | value <;> rfl

/-! ### An index -/

/-- Names are hashed by the numbers of their characters. -/
instance : Hashable Text := ⟨fun x => hash (x.map Char.val)⟩

/-- A table that finds the positions of its variables in a hash map. -/
structure Indexed where
  capacity : Nat
  entries : Array Variable := #[]
  index : Std.HashMap Text Nat := ∅
  nextOffset : Int64 := Variable.slotSize

namespace Indexed

def find? (u : Indexed) (x : Text) : Option Variable := u.index[x]?.bind (u.entries[·]?)

/-- Makes sure that a name is declared, and answers its position. -/
def declare (u : Indexed) (x : Text) : Except Error (Nat × Indexed) :=
  match u.index[x]? with
  | some i => .ok (i, u)
  | none =>
    if u.capacity ≤ u.entries.size then .error (.tooMany .symbols u.capacity)
    else .ok (u.entries.size,
      { u with
        entries := u.entries.push { name := x, value := 0, offset := u.nextOffset, declared := true }
        index := u.index.insert x u.entries.size
        nextOffset := u.nextOffset + Variable.slotSize })

/-- Records the value of the variable at a position. -/
def write (u : Indexed) (i : Nat) (value : Int64) : Indexed :=
  { u with entries := u.entries.modify i ({ · with value }) }

def ask (u : Indexed) : Request → Answer × Indexed
  | .declare x value =>
    match u.declare x with
    | .error e => (.error e, u)
    | .ok (i, u') => (.ok u'.entries[i]?, value.elim u' (u'.write i))
  | .find x => (.ok (u.find? x), u)
  | .assign x value => (.ok (u.find? x), u.index[x]?.elim u (u.write · value))

end Indexed

/-- Both tables hold the same variables, and the index holds exactly their names, each with its position. -/
structure Represents (u : Indexed) (t : SymbolTable) : Prop where
  capacity : u.capacity = t.capacity
  entries : u.entries.toList = t.entries
  nextOffset : u.nextOffset = t.nextOffset
  index : ∀ (x : Text) (i : Nat), u.index[x]? = some i ↔ (t.entries.map Variable.name)[i]? = some x

private theorem getElem?_concat_eq_some {α : Type} {l : List α} {a b : α} {i : Nat} :
    (l ++ [a])[i]? = some b ↔ l[i]? = some b ∨ i = l.length ∧ a = b := by
  rcases Nat.lt_or_ge i l.length with hi | hi
  · rw [List.getElem?_append_left hi]
    exact ⟨.inl, fun h => h.resolve_right fun hend => absurd hend.1 (Nat.ne_of_lt hi)⟩
  · rw [List.getElem?_append_right hi, List.getElem?_eq_none hi, List.getElem?_singleton]
    by_cases heq : i = l.length
    · simp [heq]
    · have hsub : i - l.length ≠ 0 := by omega
      simp [heq, hsub]

namespace Represents

variable {u : Indexed} {t : SymbolTable}

theorem empty (capacity : Nat) : Represents { capacity } { capacity } := by
  refine ⟨rfl, rfl, rfl, fun x i => ?_⟩
  simp

private theorem getElem?_entries (h : Represents u t) (i : Nat) : u.entries[i]? = t.entries[i]? := by
  rw [← h.entries, Array.getElem?_toList]

private theorem size_entries (h : Represents u t) : u.entries.size = t.size := by
  rw [size, ← h.entries, Array.length_toList]

/-- A name that the index does not hold is not declared. -/
theorem find?_eq_none (h : Represents u t) {x : Text} (hx : u.index[x]? = none) : t.find? x = none := by
  rw [SymbolTable.find?_eq_none]
  intro hmem
  obtain ⟨i, hi⟩ := List.getElem?_of_mem hmem
  rw [(h.index x i).2 hi] at hx
  cases hx

/-- The position of a name is that of its variable, and no other variable has that name. -/
private theorem find?_eq_getElem? (h : Represents u t) {x : Text} {i : Nat} (hx : u.index[x]? = some i) :
    ∃ v, t.entries[i]? = some v ∧ t.find? x = some v := by
  have hname := (h.index x i).1 hx
  rw [List.getElem?_map] at hname
  obtain ⟨v, hv, hvx⟩ := Option.map_eq_some_iff.1 hname
  have hsome : (t.find? x).isSome = true :=
    find?_isSome.2 (hvx ▸ List.mem_map_of_mem (List.mem_of_getElem? hv))
  obtain ⟨w, hw⟩ := Option.isSome_iff_exists.1 hsome
  obtain ⟨hmem, hwx⟩ := mem_of_find?_eq_some hw
  obtain ⟨j, hj⟩ := List.getElem?_of_mem hmem
  have hposition : u.index[x]? = some j := (h.index x j).2 (by rw [List.getElem?_map, hj, Option.map_some, hwx])
  obtain rfl := Option.some.inj (hx.symm.trans hposition)
  exact ⟨w, hj, hw⟩

theorem find? (h : Represents u t) (x : Text) : u.find? x = t.find? x := by
  rw [Indexed.find?]
  rcases hx : u.index[x]? with _ | i
  · rw [h.find?_eq_none hx]
    rfl
  · obtain ⟨v, hv, hfind⟩ := h.find?_eq_getElem? hx
    rw [hfind, Option.bind_some, h.getElem?_entries, hv]

theorem write (h : Represents u t) {x : Text} {i : Nat} (hx : u.index[x]? = some i) (value : Int64) :
    Represents (u.write i value) (t.assign x value) where
  capacity := h.capacity
  entries := by
    rw [Indexed.write, Array.toList_modify, h.entries, assign]
    refine List.ext_getElem? fun j => ?_
    rw [List.getElem?_modify, List.getElem?_map]
    rcases hj : t.entries[j]? with _ | v
    · rfl
    · have hposition : v.name = x ↔ i = j := by
        have hindex := h.index x j
        rw [hx, List.getElem?_map, hj] at hindex
        simpa using hindex.symm
      by_cases hij : i = j
      · simp [hij, hposition.2 hij]
      · have hne : v.name ≠ x := fun hname => hij (hposition.1 hname)
        simp [hij, hne]
  nextOffset := h.nextOffset
  index := by
    intro y j
    rw [name_assign]
    exact h.index y j

/-- A new name goes to the end of the variables, and to the index with that position. -/
theorem add (h : Represents u t) {x : Text} (hx : u.index[x]? = none) :
    Represents
      { u with
        entries := u.entries.push { name := x, value := 0, offset := u.nextOffset, declared := true }
        index := u.index.insert x u.entries.size
        nextOffset := u.nextOffset + Variable.slotSize } (t.add x) where
  capacity := h.capacity
  entries := by simp [SymbolTable.add, h.entries, h.nextOffset]
  nextOffset := by simp [SymbolTable.add, h.nextOffset]
  index := by
    intro y i
    have hsize : u.entries.size = (t.entries.map Variable.name).length := by
      rw [h.size_entries, size, List.length_map]
    have hconcat : (t.add x).entries.map Variable.name = t.entries.map Variable.name ++ [x] := by
      simp [SymbolTable.add]
    rw [Std.HashMap.getElem?_insert, hconcat, getElem?_concat_eq_some, ← h.index y i, hsize]
    by_cases hy : x = y
    · subst hy
      simp [hx, eq_comm]
    · simp [hy]

/-- Both tables refuse a name, or both have a position for it. -/
theorem declare (h : Represents u t) (x : Text) :
    (∃ e, u.declare x = .error e ∧ t.declare x = .error e) ∨
      ∃ i u' t', u.declare x = .ok (i, u') ∧ t.declare x = .ok t' ∧ Represents u' t' ∧ u'.index[x]? = some i := by
  rw [Indexed.declare]
  rcases hx : u.index[x]? with _ | i
  · have hnone := h.find?_eq_none hx
    dsimp only
    rw [h.capacity, h.size_entries]
    by_cases hfull : t.capacity ≤ t.size
    · rw [if_pos hfull]
      exact .inl ⟨_, rfl, declare_of_full hnone hfull⟩
    · rw [if_neg hfull]
      refine .inr ⟨_, _, t.add x, rfl, ?_, h.size_entries ▸ h.capacity ▸ h.add hx, by simp⟩
      rw [SymbolTable.declare, hnone, if_neg (by simp), if_neg hfull]
  · obtain ⟨v, -, hfind⟩ := h.find?_eq_getElem? hx
    exact .inr ⟨i, u, t, rfl, declare_of_isSome (by rw [hfind]; rfl), h, hx⟩

/-- Both tables give the same answer, and stay alike. -/
theorem ask (h : Represents u t) (r : Request) :
    (u.ask r).1 = (t.ask r).1 ∧ Represents (u.ask r).2 (t.ask r).2 := by
  cases r with
  | declare x value =>
    rw [Indexed.ask, SymbolTable.ask]
    rcases h.declare x with ⟨e, hu, ht⟩ | ⟨i, u', t', hu, ht, h', hx⟩
    · rw [hu, ht]
      exact ⟨rfl, h⟩
    · rw [hu, ht]
      obtain ⟨v, hv, hfind⟩ := h'.find?_eq_getElem? hx
      dsimp only
      refine ⟨by rw [h'.getElem?_entries, hv, hfind], ?_⟩
      cases value with
      | none => exact h'
      | some value => exact h'.write hx value
  | find x => exact ⟨congrArg Except.ok (h.find? x), h⟩
  | assign x value =>
    refine ⟨congrArg Except.ok (h.find? x), ?_⟩
    rw [Indexed.ask, SymbolTable.ask]
    rcases hx : u.index[x]? with _ | i
    · rw [assign_of_find?_eq_none (h.find?_eq_none hx)]
      exact h
    · exact h.write hx value

theorem run (h : Represents u t) (history : List Request) :
    events Indexed.ask u history = events SymbolTable.ask t history ∧
      Represents (after Indexed.ask u history) (after SymbolTable.ask t history) := by
  induction history generalizing u t with
  | nil => exact ⟨rfl, h⟩
  | cons r history ih =>
    obtain ⟨hanswer, hnext⟩ := h.ask r
    obtain ⟨hevents, hafter⟩ := ih hnext
    exact ⟨by rw [events, events, hanswer, hevents], hafter⟩

end Represents

/-! ### Every history -/

/-- What every history leaves, with or without an index. -/
theorem after_history {capacity : Nat} {history : List Request}
    (hsize : (after ask { capacity } history).size < 2 ^ 60 - 1) :
    let t := after ask { capacity } history
    let u := after Indexed.ask { capacity } history
    let past := events ask { capacity } history
    ((t.entries.map Variable.name).Nodup ∧
        (∀ (i : Nat) v, t.entries[i]? = some v → v.offset.toInt = 8 * (i + 1) ∧ v.declared = true) ∧
        t.nextOffset.toInt = 8 * (t.size + 1) ∧ t.size ≤ capacity) ∧
      (Represents u t ∧ events Indexed.ask { capacity } history = past) ∧
      (∀ x, t.find? x = (firstDeclared past x).map fun v => { v with value := (lastWritten past x).getD 0 }) ∧
      (∀ x v, t.find? x = some v → t.ask (.declare x none) = (.ok (some v), t)) ∧
      ∀ x value, t.find? x = none → t.size = capacity →
        t.ask (.declare x value) = (.error (.tooMany .symbols capacity), t) := by
  intro t u past
  obtain ⟨hwf, hcapacity⟩ := wellFormed_after capacity history
  obtain ⟨hevents, hrepresents⟩ := (Represents.empty capacity).run history
  refine ⟨⟨hwf.nodup, fun i v hv => hwf.toInt_offset hsize hv, ?_, ?_⟩, ⟨hrepresents, hevents⟩,
    fun x => (find?_after capacity history x).1, fun x v hv => ?_, fun x value hnew hfull => ?_⟩
  · rw [hwf.nextOffset, toInt_offsetAt hsize]
  · rw [← hcapacity]
    exact hwf.size_le
  · rw [ask, declare_of_isSome (by rw [hv]; rfl)]
    dsimp only
    rw [hv]
    rfl
  · rw [ask, declare_of_full hnew (by rw [hfull]; exact Nat.le_of_eq hcapacity)]
    rw [show t.capacity = capacity from hcapacity]

/-- A name that is assigned before its declaration, one that is declared twice, and one that finds no room. -/
theorem after_history_full :
    let history : List Request := [.assign ['a'] 5, .declare ['a'] (some 3), .declare ['b'] none,
      .declare ['c'] (some 1), .assign ['a'] 7, .declare ['a'] none, .find ['c']]
    let t := after ask { capacity := 2 } history
    t.size < 2 ^ 60 - 1 ∧ (t.entries.map Variable.name).Nodup ∧ t.nextOffset.toInt = 8 * (t.size + 1) ∧
      t.find? ['a'] = some { name := ['a'], value := 7, offset := 8, declared := true } ∧
      t.find? ['b'] = some { name := ['b'], value := 0, offset := 16, declared := true } ∧ t.find? ['c'] = none ∧
      t.ask (.declare ['c'] (some 1)) = (.error (.tooMany .symbols 2), t) := by
  intro history t
  have hsize : t.size < 2 ^ 60 - 1 := by decide +kernel
  obtain ⟨⟨hnodup, -, hnext, -⟩, -, hfind, -, hfull⟩ := after_history hsize
  have hc : t.find? ['c'] = none := (hfind ['c']).trans (by decide +kernel)
  exact ⟨hsize, hnodup, hnext, (hfind ['a']).trans (by decide +kernel), (hfind ['b']).trans (by decide +kernel), hc,
    hfull ['c'] (some 1) hc (by decide +kernel)⟩

end SymbolTable

end ArithMips
