import ArithMips.SymbolTable
import Mathlib.Algebra.Group.Nat.Defs
import Mathlib.Data.List.Nodup

/-!
# The layout of symbol tables

What every table keeps that was built by declarations and assignments (`SymbolTable.WellFormed`): names are
distinct, the variable at position `i` owns the slot at offset `8 * (i + 1)`, and the next slot follows the last
one.  As long as the offsets fit in 64 bits no two variables share a slot (`WellFormed.eq_of_offset_eq`), and the
slot of a new variable is nobody else's (`WellFormed.nextOffset_ne`).
-/

namespace ArithMips

namespace SymbolTable

/-- The offset of the slot at a position. -/
def offsetAt (i : Nat) : Int64 := Int64.ofNat (8 * (i + 1))

/-- What declarations and assignments keep. -/
structure WellFormed (t : SymbolTable) : Prop where
  nodup : (t.entries.map Variable.name).Nodup
  offsets : t.entries.map Variable.offset = (List.range t.size).map offsetAt
  nextOffset : t.nextOffset = offsetAt t.size
  size_le : t.size ≤ t.capacity
  declared : ∀ v ∈ t.entries, v.declared = true

theorem toInt_offsetAt {i : Nat} (h : i < 2 ^ 60 - 1) : (offsetAt i).toInt = 8 * (i + 1) := by
  rw [offsetAt, Int64.toInt_ofNat_of_lt (by omega)]
  push_cast
  rfl

private theorem offsetAt_inj {i j : Nat} (hi : i < 2 ^ 60 - 1) (hj : j < 2 ^ 60 - 1) (h : offsetAt i = offsetAt j) :
    i = j := by
  have e := congrArg Int64.toInt h
  rw [toInt_offsetAt hi, toInt_offsetAt hj] at e
  omega

theorem offsetAt_succ (i : Nat) : offsetAt (i + 1) = offsetAt i + Variable.slotSize := by
  rw [offsetAt, offsetAt, show 8 * (i + 1 + 1) = 8 * (i + 1) + 8 by omega, Int64.ofNat_add]
  rfl

/-! ### Looking up names -/

theorem find?_eq_none {t : SymbolTable} {name : Text} :
    t.find? name = none ↔ name ∉ t.entries.map Variable.name := by
  simp [find?]

theorem mem_of_find?_eq_some {t : SymbolTable} {name : Text} {v : Variable} (h : t.find? name = some v) :
    v ∈ t.entries ∧ v.name = name := by
  unfold find? at h
  exact ⟨List.mem_of_find?_eq_some h, by simpa using List.find?_some h⟩

theorem find?_isSome {t : SymbolTable} {name : Text} :
    (t.find? name).isSome = true ↔ name ∈ t.entries.map Variable.name := by
  simp [find?]

/-- The ways in which a declaration succeeds. -/
theorem declare_cases {t t' : SymbolTable} {name : Text} (h : t.declare name = .ok t') :
    (t' = t ∧ (t.find? name).isSome = true) ∨
      (t' = t.add name ∧ t.find? name = none ∧ t.size < t.capacity) := by
  unfold declare at h
  split at h
  · cases h
    exact .inl ⟨rfl, ‹_›⟩
  · split at h
    · cases h
    · cases h
      exact .inr ⟨rfl, by simpa using ‹¬(t.find? name).isSome = true›, by omega⟩

theorem declare_of_isSome {t : SymbolTable} {x : Text} (h : (t.find? x).isSome = true) : t.declare x = .ok t := by
  rw [declare, if_pos h]

theorem declare_of_full {t : SymbolTable} {x : Text} (h : t.find? x = none) (hfull : t.capacity ≤ t.size) :
    t.declare x = .error (.tooMany .symbols t.capacity) := by
  rw [declare, h, if_neg (by simp), if_pos hfull]

@[simp] theorem size_add (t : SymbolTable) (name : Text) : (t.add name).size = t.size + 1 := by
  simp [add, size]

@[simp] theorem size_assign (t : SymbolTable) (name : Text) (value : Int64) :
    (t.assign name value).size = t.size := by
  simp [assign, size]

theorem size_le_of_declare {t t' : SymbolTable} {name : Text} (h : t.declare name = .ok t') :
    t.size ≤ t'.size := by
  rcases declare_cases h with ⟨rfl, -⟩ | ⟨rfl, -⟩
  · exact Nat.le_refl _
  · simp

theorem capacity_declare {t t' : SymbolTable} {name : Text} (h : t.declare name = .ok t') :
    t'.capacity = t.capacity := by
  rcases declare_cases h with ⟨rfl, -⟩ | ⟨rfl, -⟩ <;> rfl

theorem exists_find?_of_declare {t t' : SymbolTable} {name : Text} (h : t.declare name = .ok t') :
    ∃ v, t'.find? name = some v := by
  rw [← Option.isSome_iff_exists]
  rcases declare_cases h with ⟨rfl, hs⟩ | ⟨rfl, -⟩
  · exact hs
  · simp [find?_isSome, add]

/-- Assigning changes values only. -/
theorem map_entries_assign {β : Type} {g : Variable → β}
    (hg : ∀ (v : Variable) (value : Int64), g { v with value } = g v) (t : SymbolTable) (name : Text)
    (value : Int64) : (t.assign name value).entries.map g = t.entries.map g := by
  simp only [assign, List.map_map]
  refine List.map_congr_left fun v _ => ?_
  simp only [Function.comp_apply]
  split
  · exact hg v value
  · rfl

theorem name_assign (t : SymbolTable) (name : Text) (value : Int64) :
    (t.assign name value).entries.map Variable.name = t.entries.map Variable.name :=
  map_entries_assign (fun _ _ => rfl) t name value

private theorem offset_assign (t : SymbolTable) (name : Text) (value : Int64) :
    (t.assign name value).entries.map Variable.offset = t.entries.map Variable.offset :=
  map_entries_assign (fun _ _ => rfl) t name value

theorem find?_assign (t : SymbolTable) (name : Text) (value : Int64) (x : Text) :
    (t.assign name value).find? x = (t.find? x).map fun v => if x = name then { v with value } else v := by
  have hcomp : ((fun w : Variable => decide (w.name = x)) ∘ fun w => if w.name = name then { w with value } else w) =
      fun w => decide (w.name = x) := by
    funext w
    by_cases hw : w.name = name <;> simp [hw]
  rw [find?, assign, List.find?_map, hcomp]
  rcases hv : t.find? x with _ | v
  · rw [find?] at hv
    rw [hv]
    rfl
  · have hname := (mem_of_find?_eq_some hv).2
    rw [find?] at hv
    rw [hv, Option.map_some, Option.map_some, hname]

theorem find?_assign_self {t : SymbolTable} {name : Text} {v : Variable} (h : t.find? name = some v) (value : Int64) :
    (t.assign name value).find? name = some { v with value } := by
  rw [find?_assign, h, Option.map_some, if_pos rfl]

theorem assign_of_find?_eq_none {t : SymbolTable} {x : Text} (h : t.find? x = none) (value : Int64) :
    t.assign x value = t := by
  have hmap : (t.entries.map fun v => if v.name = x then { v with value } else v) = t.entries := by
    refine (List.map_congr_left fun v hv => ?_).trans (List.map_id t.entries)
    have hname : v.name ≠ x := fun heq => find?_eq_none.1 h (heq ▸ List.mem_map_of_mem hv)
    exact if_neg hname
  rw [assign, hmap]

theorem find?_add (t : SymbolTable) (name x : Text) :
    (t.add name).find? x = (t.find? x).or
      (if name = x then some { name, value := 0, offset := t.nextOffset, declared := true } else none) := by
  rw [find?, find?, add, List.find?_append]
  by_cases hx : name = x <;> simp [hx]

/-! ### The invariant -/

theorem wellFormed_empty (capacity : Nat) : WellFormed { capacity } where
  nodup := List.nodup_nil
  offsets := rfl
  nextOffset := rfl
  size_le := Nat.zero_le _
  declared := by simp

namespace WellFormed

theorem add {t : SymbolTable} (h : t.WellFormed) {name : Text} (hnew : t.find? name = none)
    (hroom : t.size < t.capacity) : (t.add name).WellFormed where
  nodup := by
    rw [find?_eq_none] at hnew
    simp only [SymbolTable.add, List.map_append, List.map_cons, List.map_nil]
    exact List.nodup_append.2 ⟨h.nodup, List.nodup_singleton _, fun x hx y hy e =>
      hnew (by rw [List.mem_singleton.1 hy] at e; exact e ▸ hx)⟩
  offsets := by
    rw [size_add, List.range_succ, List.map_append, ← h.offsets]
    simp [SymbolTable.add, h.nextOffset]
  nextOffset := by
    rw [size_add, offsetAt_succ, ← h.nextOffset]
    rfl
  size_le := by
    rw [size_add]
    exact hroom
  declared := by
    intro v hv
    rcases List.mem_append.1 hv with hv | hv
    · exact h.declared v hv
    · rw [List.mem_singleton.1 hv]

theorem declare {t t' : SymbolTable} (h : t.WellFormed) {name : Text} (hd : t.declare name = .ok t') :
    t'.WellFormed := by
  rcases declare_cases hd with ⟨rfl, -⟩ | ⟨rfl, hnew, hroom⟩
  · exact h
  · exact h.add hnew hroom

theorem assign {t : SymbolTable} (h : t.WellFormed) (name : Text) (value : Int64) :
    (t.assign name value).WellFormed where
  nodup := by rw [name_assign]; exact h.nodup
  offsets := by rw [offset_assign, size_assign]; exact h.offsets
  nextOffset := by rw [size_assign]; exact h.nextOffset
  size_le := by rw [size_assign]; exact h.size_le
  declared := by
    intro v hv
    obtain ⟨w, hw, rfl⟩ := List.mem_map.1 hv
    have := h.declared w hw
    split <;> exact this

/-- The variable of a name is the only one with that name. -/
theorem eq_of_name_eq {t : SymbolTable} (h : t.WellFormed) {v w : Variable} (hv : v ∈ t.entries)
    (hw : w ∈ t.entries) (e : v.name = w.name) : v = w :=
  List.inj_on_of_nodup_map h.nodup hv hw e

theorem find?_name {t : SymbolTable} (h : t.WellFormed) {v : Variable} (hv : v ∈ t.entries) :
    t.find? v.name = some v := by
  have hsome : (t.find? v.name).isSome = true := find?_isSome.2 (List.mem_map_of_mem hv)
  obtain ⟨w, hw⟩ := Option.isSome_iff_exists.1 hsome
  obtain ⟨hmem, hname⟩ := mem_of_find?_eq_some hw
  rw [hw, h.eq_of_name_eq hmem hv hname]

private theorem nodup_offsets {t : SymbolTable} (h : t.WellFormed) (hsize : t.size < 2 ^ 60 - 1) :
    (t.entries.map Variable.offset).Nodup := by
  rw [h.offsets]
  refine List.Nodup.map_on ?_ List.nodup_range
  intro i hi j hj e
  rw [List.mem_range] at hi hj
  exact offsetAt_inj (by omega) (by omega) e

/-- No two variables share a slot. -/
theorem eq_of_offset_eq {t : SymbolTable} (h : t.WellFormed) (hsize : t.size < 2 ^ 60 - 1) {v w : Variable}
    (hv : v ∈ t.entries) (hw : w ∈ t.entries) (e : v.offset = w.offset) : v = w :=
  List.inj_on_of_nodup_map (h.nodup_offsets hsize) hv hw e

theorem exists_offset_eq {t : SymbolTable} (h : t.WellFormed) {v : Variable} (hv : v ∈ t.entries) :
    ∃ i, i < t.size ∧ v.offset = offsetAt i := by
  have hmem : v.offset ∈ (List.range t.size).map offsetAt := h.offsets ▸ List.mem_map_of_mem hv
  obtain ⟨i, hi, e⟩ := List.mem_map.1 hmem
  exact ⟨i, List.mem_range.1 hi, e.symm⟩

/-- The next slot is free. -/
theorem nextOffset_ne {t : SymbolTable} (h : t.WellFormed) (hsize : t.size < 2 ^ 60 - 1) {v : Variable}
    (hv : v ∈ t.entries) : t.nextOffset ≠ v.offset := by
  obtain ⟨i, hi, e⟩ := h.exists_offset_eq hv
  rw [h.nextOffset, e]
  intro e'
  have := offsetAt_inj hsize (by omega) e'
  omega

end WellFormed

end SymbolTable

end ArithMips
