import Mathlib.Data.Nat.Bitwise
import Mathlib.Data.Nat.Digits.Defs
import Mathlib.Order.Compare
import Mathlib.Tactic.Common
import Mathlib.Tactic.Linarith
import Mathlib.Tactic.Positivity
import Mathlib.Tactic.Ring

namespace Limbs
set_option autoImplicit true

variable {w : Nat}

/-- The number that a list of words stands for. -/
def val (l : List (BitVec w)) : Nat := Nat.ofDigits (2 ^ w) (l.map BitVec.toNat)

@[simp] theorem val_nil : val ([] : List (BitVec w)) = 0 := rfl

@[simp] theorem val_cons (d : BitVec w) (l : List (BitVec w)) :
    val (d :: l) = d.toNat + 2 ^ w * val l := by
  rw [val, List.map_cons, Nat.ofDigits_cons]
  rfl

theorem val_lt (l : List (BitVec w)) : val l < 2 ^ (w * l.length) := by
  induction l with
  | nil => exact Nat.one_pos
  | cons d l ih =>
    have hd := d.isLt
    rw [val_cons, List.length_cons, Nat.mul_succ, Nat.pow_add, Nat.mul_comm (2 ^ (w * l.length))]
    calc d.toNat + 2 ^ w * val l < 2 ^ w + 2 ^ w * val l := by omega
      _ = 2 ^ w * (val l + 1) := by ring
      _ ≤ 2 ^ w * 2 ^ (w * l.length) := Nat.mul_le_mul_left _ ih

theorem val_append (l m : List (BitVec w)) :
    val (l ++ m) = val l + 2 ^ (w * l.length) * val m := by
  induction l with
  | nil => rw [List.nil_append, val_nil, List.length_nil, Nat.mul_zero, Nat.pow_zero, Nat.one_mul,
      Nat.zero_add]
  | cons d l ih =>
    rw [List.cons_append, val_cons, ih, val_cons, List.length_cons, Nat.mul_succ, Nat.pow_add]
    ring

theorem val_take (l : List (BitVec w)) (h : n ≤ l.length) :
    val (l.take n) = val l % 2 ^ (w * n) := by
  have ha := val_append (l.take n) (l.drop n)
  have hlt := val_lt (l.take n)
  rw [List.take_append_drop, List.length_take, Nat.min_eq_left h] at ha
  rw [List.length_take, Nat.min_eq_left h] at hlt
  rw [ha, Nat.add_mul_mod_self_left, Nat.mod_eq_of_lt hlt]

theorem val_eq_zero {l : List (BitVec w)} : val l = 0 ↔ ∀ d ∈ l, d = 0 := by
  induction l with
  | nil => simp
  | cons d l ih =>
    have hp : 2 ^ w ≠ 0 := by positivity
    rw [val_cons, Nat.add_eq_zero_iff, Nat.mul_eq_zero, or_iff_right hp, ih, List.forall_mem_cons]
    refine and_congr_left fun _ => ?_
    exact ⟨fun h => BitVec.eq_of_toNat_eq h, fun h => h ▸ rfl⟩

/-- A carry as a word. -/
def flag (c : Bool) : BitVec w := BitVec.ofNat w c.toNat

theorem flag_toNat (hw : 0 < w) (c : Bool) : (flag c : BitVec w).toNat = c.toNat := by
  rw [flag, BitVec.toNat_ofNat]
  refine Nat.mod_eq_of_lt ?_
  have h : 2 ^ 1 ≤ 2 ^ w := Nat.pow_le_pow_right Nat.two_pos hw
  have hc := Bool.toNat_lt c
  omega

/-- The two wrapped sums and the carry that two comparisons find in them. -/
theorem add_step (hw : 0 < w) (a b : BitVec w) (c : Bool) :
    (a + b + flag c).toNat + 2 ^ w * (decide (a + b < a) || decide (a + b + flag c < a + b)).toNat =
      a.toNat + b.toNat + c.toNat := by
  have ha := a.isLt
  have hb := b.isLt
  have hc := Bool.toNat_lt c
  have h2 : 2 ^ 1 ≤ 2 ^ w := Nat.pow_le_pow_right Nat.two_pos hw
  simp only [BitVec.lt_def, BitVec.toNat_add, flag_toNat hw]
  generalize a.toNat = x at *
  generalize b.toNat = y at *
  generalize c.toNat = z at *
  generalize 2 ^ w = m at *
  have hxy : (x + y) % m = if x + y < m then x + y else x + y - m := by
    split
    · exact Nat.mod_eq_of_lt ‹_›
    · rw [Nat.mod_eq_sub_mod (by omega), Nat.mod_eq_of_lt (by omega)]
  have hlt := Nat.mod_lt (x + y) (show 0 < m by omega)
  have hxyz : ((x + y) % m + z) % m =
      if (x + y) % m + z < m then (x + y) % m + z else (x + y) % m + z - m := by
    split
    · exact Nat.mod_eq_of_lt ‹_›
    · rw [Nat.mod_eq_sub_mod (by omega), Nat.mod_eq_of_lt (by omega)]
  rw [hxyz, hxy]
  by_cases h1 : x + y < m
  · by_cases h3 : x + y + z < m
    · simp [h1, h3, Nat.not_lt.2 (Nat.le_add_right _ _)]
    · have hz : x + y + z - m < x + y := by omega
      simp [h1, h3, hz]
      omega
  · have hlt : x + y - m < x := by omega
    have hz : x + y - m + z < m := by omega
    simp [h1, hz, hlt]
    omega

/-- The two wrapped differences and the borrow that two comparisons find in them. -/
theorem sub_step (hw : 0 < w) (a b : BitVec w) (c : Bool) :
    (a - b - flag c).toNat + b.toNat + c.toNat =
      a.toNat + 2 ^ w * (decide (a < a - b) || decide (a - b < a - b - flag c)).toNat := by
  have ha := a.isLt
  have hb := b.isLt
  have hc := Bool.toNat_lt c
  have h2 : 2 ^ 1 ≤ 2 ^ w := Nat.pow_le_pow_right Nat.two_pos hw
  simp only [BitVec.lt_def, BitVec.toNat_sub, flag_toNat hw]
  generalize a.toNat = x at *
  generalize b.toNat = y at *
  generalize c.toNat = z at *
  generalize 2 ^ w = m at *
  have hxy : (m - y + x) % m = if y ≤ x then x - y else m - y + x := by
    split
    · rw [Nat.mod_eq_sub_mod (by omega), Nat.mod_eq_of_lt (by omega)]
      omega
    · exact Nat.mod_eq_of_lt (by omega)
  have hxyz : (m - z + (m - y + x) % m) % m =
      if z ≤ (m - y + x) % m then (m - y + x) % m - z else m - z + (m - y + x) % m := by
    have hlt := Nat.mod_lt (m - y + x) (show 0 < m by omega)
    split
    · rw [Nat.mod_eq_sub_mod (by omega), Nat.mod_eq_of_lt (by omega)]
      omega
    · exact Nat.mod_eq_of_lt (by omega)
  rw [hxyz, hxy]
  by_cases h1 : y ≤ x
  · have hn : ¬ x < x - y := by omega
    by_cases h3 : z ≤ x - y
    · have hn' : ¬ x - y < x - y - z := by omega
      simp [h1, h3, hn, hn']
      omega
    · have hz : x - y < m - z + (x - y) := by omega
      simp [h1, h3, hn, hz]
      omega
  · have hlt : x < m - y + x := by omega
    have hz : z ≤ m - y + x := by omega
    simp [h1, hz, hlt]
    omega

/-- Word by word addition. The second number is extended with zeros. -/
def addc (c : Bool) : List (BitVec w) → List (BitVec w) → List (BitVec w) × Bool
  | [], _ => ([], c)
  | t1 :: a, b =>
    let t3 := t1 + b.headD 0
    let t4 := t3 + flag c
    let r := addc (decide (t3 < t1) || decide (t4 < t3)) a b.tail
    (t4 :: r.1, r.2)

/-- Word by word subtraction. The second number is extended with zeros. -/
def subb (c : Bool) : List (BitVec w) → List (BitVec w) → List (BitVec w) × Bool
  | [], _ => ([], c)
  | t1 :: a, b =>
    let t2 := t1 - b.headD 0
    let t3 := t2 - flag c
    let r := subb (decide (t1 < t2) || decide (t2 < t3)) a b.tail
    (t3 :: r.1, r.2)

@[simp] theorem addc_length (c : Bool) (a b : List (BitVec w)) :
    (addc c a b).1.length = a.length := by
  induction a generalizing b c with
  | nil => rfl
  | cons t1 a ih => rw [addc, List.length_cons, ih, List.length_cons]

@[simp] theorem subb_length (c : Bool) (a b : List (BitVec w)) :
    (subb c a b).1.length = a.length := by
  induction a generalizing b c with
  | nil => rfl
  | cons t1 a ih => rw [subb, List.length_cons, ih, List.length_cons]

theorem val_eq_head_tail (b : List (BitVec w)) :
    val b = (b.headD 0).toNat + 2 ^ w * val b.tail := by
  cases b with
  | nil => rfl
  | cons d b => exact val_cons d b

theorem addc_val (hw : 0 < w) (c : Bool) {a b : List (BitVec w)} (h : b.length ≤ a.length) :
    val (addc c a b).1 + 2 ^ (w * a.length) * (addc c a b).2.toNat = val a + val b + c.toNat := by
  induction a generalizing b c with
  | nil =>
    rw [List.length_eq_zero_iff.1 (Nat.le_zero.1 h)]
    simp [addc]
  | cons t1 a ih =>
    have hlen : b.tail.length ≤ a.length := by
      rw [List.length_tail]
      rw [List.length_cons] at h
      omega
    have hs := add_step hw t1 (b.headD 0) c
    have hi := ih (decide (t1 + b.headD 0 < t1) ||
      decide (t1 + b.headD 0 + flag c < t1 + b.headD 0)) hlen
    rw [val_eq_head_tail b, addc, val_cons, val_cons, List.length_cons, Nat.mul_succ, Nat.pow_add]
    generalize (addc _ a b.tail) = r at hi ⊢
    calc _ = (t1 + b.headD 0 + flag c).toNat +
          2 ^ w * (val r.1 + 2 ^ (w * a.length) * r.2.toNat) := by ring
      _ = _ := by
        rw [hi]
        linarith

theorem subb_val (hw : 0 < w) (c : Bool) {a b : List (BitVec w)} (h : b.length ≤ a.length) :
    val (subb c a b).1 + val b + c.toNat = val a + 2 ^ (w * a.length) * (subb c a b).2.toNat := by
  induction a generalizing b c with
  | nil =>
    rw [List.length_eq_zero_iff.1 (Nat.le_zero.1 h)]
    simp [subb]
  | cons t1 a ih =>
    have hlen : b.tail.length ≤ a.length := by
      rw [List.length_tail]
      rw [List.length_cons] at h
      omega
    have hs := sub_step hw t1 (b.headD 0) c
    have hi := ih (decide (t1 < t1 - b.headD 0) ||
      decide (t1 - b.headD 0 < t1 - b.headD 0 - flag c)) hlen
    rw [val_eq_head_tail b, subb, val_cons, val_cons, List.length_cons, Nat.mul_succ, Nat.pow_add]
    generalize (subb _ a b.tail) = r at hi ⊢
    have hm := congrArg (2 ^ w * ·) hi
    simp only [Nat.mul_add] at hm
    calc _ = (t1 - b.headD 0 - flag c).toNat + 2 ^ w * val r.1 +
          ((b.headD 0).toNat + 2 ^ w * val b.tail) + c.toNat := rfl
      _ = t1.toNat + 2 ^ w * val a + 2 ^ w * (2 ^ (w * a.length) * r.2.toNat) := by linarith
      _ = _ := by ring

theorem addc_val_mod (hw : 0 < w) {a b : List (BitVec w)} (h : b.length ≤ a.length) :
    val (addc false a b).1 = (val a + val b) % 2 ^ (w * a.length) := by
  have ha := addc_val hw false h
  have hlt := val_lt (addc false a b).1
  rw [addc_length] at hlt
  rw [Bool.toNat_false, Nat.add_zero] at ha
  rw [← ha, Nat.add_mul_mod_self_left, Nat.mod_eq_of_lt hlt]

theorem subb_val_sub (hw : 0 < w) {a b : List (BitVec w)} (h : b.length ≤ a.length)
    (hle : val b ≤ val a) : val (subb false a b).1 = val a - val b := by
  have hs := subb_val hw false h
  have hlt := val_lt (subb false a b).1
  rw [subb_length] at hlt
  rw [Bool.toNat_false, Nat.add_zero] at hs
  cases hc : (subb false a b).2 with
  | false =>
    rw [hc, Bool.toNat_false, Nat.mul_zero] at hs
    omega
  | true =>
    rw [hc, Bool.toNat_true, Nat.mul_one] at hs
    omega

/-- The highest words that differ decide. -/
def cmpFrom : List (BitVec w) → List (BitVec w) → Ordering
  | x :: a, y :: b => (cmpFrom a b).then (compare x.toNat y.toNat)
  | _, _ => .eq

theorem compare_digits {m x y u v : Nat} (hx : x < m) (hy : y < m) :
    compare (x + m * u) (y + m * v) = (compare u v).then (compare x y) := by
  obtain h | h | h := lt_trichotomy u v
  · have hm := Nat.mul_le_mul_left m (Nat.succ_le_of_lt h)
    rw [Nat.mul_succ] at hm
    have hc : compare u v = .lt := compare_lt_iff_lt.2 h
    rw [hc]
    exact compare_lt_iff_lt.2 (by omega)
  · subst h
    have hc : compare u u = .eq := compare_eq_iff_eq.2 rfl
    rw [hc]
    show compare (x + m * u) (y + m * u) = compare x y
    obtain h | h | h := lt_trichotomy x y
    · rw [compare_lt_iff_lt.2 h, compare_lt_iff_lt]
      omega
    · rw [compare_eq_iff_eq.2 h, compare_eq_iff_eq, h]
    · rw [compare_gt_iff_gt.2 h, compare_gt_iff_gt]
      omega
  · have hm := Nat.mul_le_mul_left m (Nat.succ_le_of_lt h)
    rw [Nat.mul_succ] at hm
    have hc : compare u v = .gt := compare_gt_iff_gt.2 h
    rw [hc]
    exact compare_gt_iff_gt.2 (by omega)

theorem cmpFrom_eq {a b : List (BitVec w)} (h : a.length = b.length) :
    cmpFrom a b = compare (val a) (val b) := by
  induction a generalizing b with
  | nil => rw [List.length_eq_zero_iff.1 h.symm]; rfl
  | cons x a ih =>
    cases b with
    | nil => cases h
    | cons y b =>
      rw [cmpFrom, ih (Nat.succ.inj h), val_cons, val_cons, compare_digits x.isLt y.isLt]

theorem land_digits {x y : Nat} (hx : x < 2 ^ w) (hy : y < 2 ^ w) (u v : Nat) :
    (x + 2 ^ w * u) &&& (y + 2 ^ w * v) = (x &&& y) + 2 ^ w * (u &&& v) := by
  refine Nat.eq_of_testBit_eq fun i => ?_
  have hxy : x &&& y < 2 ^ w := Nat.and_lt_two_pow _ hy
  rw [Nat.testBit_and, Nat.add_comm x, Nat.add_comm y, Nat.add_comm (x &&& y),
    Nat.testBit_two_pow_mul_add _ hx, Nat.testBit_two_pow_mul_add _ hy,
    Nat.testBit_two_pow_mul_add _ hxy]
  by_cases hi : i < w
  · rw [if_pos hi, if_pos hi, if_pos hi, Nat.testBit_and]
  · rw [if_neg hi, if_neg hi, if_neg hi, Nat.testBit_and]

theorem val_and {a b : List (BitVec w)} (h : a.length = b.length) :
    val (List.zipWith (· &&& ·) a b) = val a &&& val b := by
  induction a generalizing b with
  | nil => simp
  | cons x a ih =>
    cases b with
    | nil => cases h
    | cons y b =>
      rw [List.zipWith_cons_cons, val_cons, ih (Nat.succ.inj h), val_cons, val_cons,
        land_digits x.isLt y.isLt, BitVec.toNat_and]

end Limbs
