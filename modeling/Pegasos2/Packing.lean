import Mathlib.Data.Nat.Bitwise
import Mathlib.Order.Basic
import Mathlib.Tactic.Common

namespace Packing
set_option autoImplicit true

section Packed

variable {α β : Type} [Preorder α] {start stop : β → α}

/-- The intervals of a list lie from `lo` on, each behind the one before it, and the last one
ends at `hi`. -/
inductive Packed (start stop : β → α) : α → List β → α → Prop
  | nil : Packed start stop lo [] lo
  | cons (h : lo ≤ start x) (hx : start x ≤ stop x) (hl : Packed start stop (stop x) l hi) :
      Packed start stop lo (x :: l) hi

namespace Packed

theorem le (h : Packed start stop lo l hi) : lo ≤ hi := by
  induction h with
  | nil => exact le_rfl
  | cons h hx _ ih => exact (h.trans hx).trans ih

theorem append (h : Packed start stop lo l mid) (h' : Packed start stop mid l' hi) :
    Packed start stop lo (l ++ l') hi := by
  induction h with
  | nil => exact h'
  | cons h hx _ ih => exact .cons h hx (ih h')

theorem singleton (h : lo ≤ start x) (hx : start x ≤ stop x) :
    Packed start stop lo [x] (stop x) := .cons h hx .nil

theorem eq_of_nil (h : Packed start stop lo [] hi) : hi = lo := by
  cases h
  rfl

theorem bounds (h : Packed start stop lo l hi) (hx : x ∈ l) : lo ≤ start x ∧ stop x ≤ hi := by
  induction h with
  | nil => cases hx
  | cons h hy hl ih =>
    obtain rfl | hx := List.mem_cons.1 hx
    · exact ⟨h, hl.le⟩
    · obtain ⟨hlo, hhi⟩ := ih hx
      exact ⟨(h.trans hy).trans hlo, hhi⟩

end Packed

end Packed

/-- The first multiple of `a` that is not below `v`. -/
def roundUp (v a : Nat) : Nat := (v + (a - 1)) / a * a

theorem le_roundUp (v : Nat) (ha : 0 < a) : v ≤ roundUp v a := by
  rw [roundUp]
  have h := Nat.div_add_mod (v + (a - 1)) a
  have hlt := Nat.mod_lt (v + (a - 1)) ha
  rw [Nat.mul_comm] at h
  omega

theorem dvd_roundUp (v a : Nat) : a ∣ roundUp v a := Nat.dvd_mul_left a _

theorem roundUp_le (hv : v ≤ m) (hm : a ∣ m) : roundUp v a ≤ m := by
  obtain ⟨k, rfl⟩ := hm
  obtain rfl | ha := Nat.eq_zero_or_pos a
  · simp only [roundUp, Nat.mul_zero, Nat.zero_mul, Nat.le_refl]
  · have hlt : v + (a - 1) < (k + 1) * a := by
      rw [Nat.add_mul, Nat.one_mul, Nat.mul_comm k a]
      omega
    have hdiv := Nat.div_lt_of_lt_mul (Nat.mul_comm _ _ ▸ hlt)
    rw [roundUp, Nat.mul_comm a k]
    exact Nat.mul_le_mul_right a (Nat.le_of_lt_succ hdiv)

end Packing
