import Mathlib.Data.Nat.ModEq
import Mathlib.Logic.Function.Basic
import Mathlib.Tactic.Common

namespace RingBuffer
set_option autoImplicit true

/-- A circular buffer of `n` cells, of which one always stays free: it is empty when `head` and
`tail` meet. -/
structure Ring (α : Type) (n : Nat) where
  cells : Nat → α
  head : Nat
  tail : Nat
  head_lt : head < n
  tail_lt : tail < n

namespace Ring

variable (r : Ring α n)

theorem pos (r : Ring α n) : 0 < n := Nat.zero_lt_of_lt r.head_lt

/-- The number of cells in use. -/
def size : Nat := if r.tail ≤ r.head then r.head - r.tail else r.head + n - r.tail

/-- The values in the buffer, the oldest first. -/
def contents : List α := (List.range r.size).map fun i => r.cells ((r.tail + i) % n)

def next : Nat := (r.head + 1) % n

def put (c : α) : Ring α n where
  cells := Function.update r.cells r.head c
  head := (r.head + 1) % n
  tail := r.tail
  head_lt := Nat.mod_lt _ r.pos
  tail_lt := r.tail_lt

def front : α := r.cells r.tail

def advance : Ring α n where
  cells := r.cells
  head := r.head
  tail := (r.tail + 1) % n
  head_lt := r.head_lt
  tail_lt := Nat.mod_lt _ r.pos

theorem succ_mod_cases (h : i < n) : (i + 1 < n ∧ (i + 1) % n = i + 1) ∨
    (i + 1 = n ∧ (i + 1) % n = 0) := by
  obtain hlt | heq := Nat.lt_or_eq_of_le (Nat.succ_le_of_lt h)
  · exact .inl ⟨hlt, Nat.mod_eq_of_lt hlt⟩
  · have heq' : i + 1 = n := heq
    exact .inr ⟨heq', by rw [heq', Nat.mod_self]⟩

theorem size_lt : r.size < n := by
  have hhead := r.head_lt
  have htail := r.tail_lt
  rw [size]
  split <;> omega

theorem length_contents : r.contents.length = r.size := by
  rw [contents, List.length_map, List.length_range]

theorem tail_add_size : (r.tail + r.size) % n = r.head := by
  have hhead := r.head_lt
  have htail := r.tail_lt
  rw [size]
  split
  · have hsum : r.tail + (r.head - r.tail) = r.head := by omega
    rw [hsum, Nat.mod_eq_of_lt hhead]
  · have hsum : r.tail + (r.head + n - r.tail) = r.head + n := by omega
    rw [hsum, Nat.add_mod_right, Nat.mod_eq_of_lt hhead]

theorem contents_eq_nil_iff : r.contents = [] ↔ r.head = r.tail := by
  have hhead := r.head_lt
  have htail := r.tail_lt
  rw [← List.length_eq_zero_iff, length_contents, size]
  split <;> omega

theorem next_eq_tail_iff : r.next = r.tail ↔ r.contents.length = n - 1 := by
  have htail := r.tail_lt
  have hhead := r.head_lt
  rw [length_contents, size, next]
  obtain ⟨hlt, hmod⟩ | ⟨heq, hmod⟩ := succ_mod_cases r.head_lt
  · rw [hmod]
    split <;> omega
  · rw [hmod]
    split <;> omega

theorem put_size (c : α) (h : r.next ≠ r.tail) : (r.put c).size = r.size + 1 := by
  have htail := r.tail_lt
  have hhead := r.head_lt
  have hput : (r.put c).size = if r.tail ≤ (r.head + 1) % n then (r.head + 1) % n - r.tail
      else (r.head + 1) % n + n - r.tail := rfl
  rw [next] at h
  rw [hput, size]
  obtain ⟨hlt, hmod⟩ | ⟨heq, hmod⟩ := succ_mod_cases r.head_lt
  · rw [hmod] at h ⊢
    split <;> split <;> omega
  · rw [hmod] at h ⊢
    split <;> split <;> omega

theorem slot_ne_head (hi : i < r.size) : (r.tail + i) % n ≠ r.head := by
  have htail := r.tail_lt
  have hsize := r.size_lt
  intro h
  rw [← r.tail_add_size] at h
  have hmod := Nat.ModEq.add_left_cancel' r.tail (show r.tail + i ≡ r.tail + r.size [MOD n] from h)
  have heq := Nat.ModEq.eq_of_lt_of_lt hmod (hi.trans hsize) hsize
  omega

theorem contents_put (c : α) (h : r.next ≠ r.tail) : (r.put c).contents = r.contents ++ [c] := by
  rw [contents, put_size r c h, List.range_succ, List.map_append, contents]
  congr 1
  · refine List.map_congr_left fun i hi => ?_
    exact Function.update_of_ne (r.slot_ne_head (List.mem_range.1 hi)) _ _
  · have hslot : (r.tail + r.size) % n = r.head := r.tail_add_size
    simp only [List.map_cons, List.map_nil, put, hslot, Function.update_self]

theorem advance_size (h : r.head ≠ r.tail) : r.size = r.advance.size + 1 := by
  have htail := r.tail_lt
  have hhead := r.head_lt
  have hadvance : r.advance.size = if (r.tail + 1) % n ≤ r.head then r.head - (r.tail + 1) % n
      else r.head + n - (r.tail + 1) % n := rfl
  rw [hadvance, size]
  obtain ⟨hlt, hmod⟩ | ⟨heq, hmod⟩ := succ_mod_cases r.tail_lt
  · rw [hmod]
    split <;> split <;> omega
  · rw [hmod]
    split <;> split <;> omega

theorem contents_eq_cons (h : r.head ≠ r.tail) :
    r.contents = r.front :: r.advance.contents := by
  rw [contents, advance_size r h, List.range_succ_eq_map, List.map_cons, List.map_map, contents]
  congr 1
  · rw [Nat.add_zero, Nat.mod_eq_of_lt r.tail_lt, front]
  · refine List.map_congr_left fun i _ => ?_
    simp only [Function.comp, advance]
    rw [Nat.mod_add_mod, Nat.succ_eq_add_one]
    congr 2
    omega

end Ring

end RingBuffer
