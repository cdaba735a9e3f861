import Mathlib.Order.Bounds.Defs
import Pegasos2.AllocSets

namespace Pegasos2.Alloc
open Intervals Packing
set_option autoImplicit true

variable {acells scells : Nat} {R : Region acells scells} {a : Allocator acells scells}
  {size : Cells scells} {minAddr maxAddr align mask : Option (Cells acells)}

/-- The candidate is what is left of the block from `x` on. -/
structure At (b : Block acells scells) (c : Candidate acells scells) (x : Nat) : Prop where
  addr : c.addr.val = x
  bsize : x + c.bsize.val = b.addr.val + b.size.val
  pos : 0 < c.bsize.val
  fsblock : c.fsblock = false

/-- A step moved the candidate to `x`, or there is nothing of the block from `x` on. -/
def Reaches (b : Block acells scells) (x : Nat) :
    Except (Cells acells) (Candidate acells scells) → Prop
  | .error _ => b.addr.val + b.size.val ≤ x
  | .ok c => At b c x

theorem skip_reaches {c : Candidate acells scells} (hle : scells ≤ acells) (off : Cells acells)
    (h : At b c x) (hoff : off.val < 2 ^ (32 * scells))
    (hb : b.addr.val + b.size.val < 2 ^ (32 * acells)) :
    Reaches b (x + off.val) (c.skip hle off) := by
  have hlow : (off.low scells hle).val = off.val := by
    rw [Cells.low_val, Nat.mod_eq_of_lt hoff]
  have hbs := h.bsize
  rw [Candidate.skip, h.fsblock, cmp_eq, hlow]
  by_cases hc : c.bsize.val ≤ off.val
  · rw [if_pos (by simpa [Nat.isGE_compare] using hc)]
    show b.addr.val + b.size.val ≤ x + off.val
    omega
  · rw [if_neg (by simpa [Nat.isGE_compare] using hc)]
    refine ⟨?_, ?_, ?_, rfl⟩
    · rw [add_val hle, hlow, h.addr, Nat.mod_eq_of_lt (by omega)]
    · rw [sub_val le_rfl (by rw [hlow]; omega), hlow]
      omega
    · rw [sub_val le_rfl (by rw [hlow]; omega), hlow]
      omega

theorem applyMin_reaches {c : Candidate acells scells} (hle : scells ≤ acells) (h : At b c x)
    (hb : b.addr.val + b.size.val < 2 ^ (32 * acells))
    (hmin : ∀ m ∈ minAddr, m.val < x + 2 ^ (32 * scells)) :
    Reaches b (max x (minAddr.elim 0 Cells.val)) (applyMin hle minAddr c) := by
  cases minAddr with
  | none =>
    rw [applyMin, Option.elim_none, Nat.max_zero]
    exact h
  | some m =>
    have hm := hmin m rfl
    rw [applyMin, cmp_eq, h.addr, Option.elim_some]
    by_cases hc : x < m.val
    · rw [if_pos (by rw [compare_lt_iff_lt.2 hc]; rfl), Nat.max_eq_right hc.le]
      have hoff : (sub m c.addr).1.val = m.val - x := by
        rw [sub_val le_rfl (by rw [h.addr]; exact hc.le), h.addr]
      have hr := skip_reaches hle (sub m c.addr).1 h (by omega) hb
      rwa [hoff, Nat.add_sub_cancel' hc.le] at hr
    · rw [if_neg (by rwa [Ordering.isLT_iff_eq_lt, compare_lt_iff_lt]),
        Nat.max_eq_left (not_lt.1 hc)]
      exact h

theorem roundUp_of_dvd (ha : 0 < al) (h : x % al = 0) : roundUp x al = x :=
  Nat.le_antisymm (roundUp_le le_rfl (Nat.dvd_of_mod_eq_zero h)) (le_roundUp x ha)

theorem roundUp_of_not_dvd (ha : 0 < al) (h : x % al ≠ 0) :
    roundUp x al = x + (al - x % al) := by
  have hd := Nat.div_add_mod x al
  have hlt := Nat.mod_lt x ha
  have he : x + (al - 1) = (x % al - 1) + al * (x / al + 1) := by
    rw [Nat.mul_succ]
    omega
  rw [roundUp, he, Nat.add_mul_div_left _ _ ha, Nat.div_eq_of_lt (by omega), Nat.zero_add,
    Nat.mul_comm, Nat.mul_succ]
  omega

/-- The masks that `alloc_constrained` makes of the powers of two up to the size of a block. -/
def MaskOf (scells : Nat) (m : Cells acells) (al : Nat) : Prop :=
  m.val + 1 = al ∧ ∃ k ≤ 32 * scells, al = 2 ^ k

theorem applyAlign_reaches {c : Candidate acells scells} (hle : scells ≤ acells) (h : At b c x)
    (hb : b.addr.val + b.size.val < 2 ^ (32 * acells)) (hmask : MaskOf scells m al) :
    Reaches b (roundUp x al) (applyAlign hle (some m) c) := by
  obtain ⟨hv, k, hk, rfl⟩ := hmask
  have hpos : 0 < 2 ^ k := Nat.two_pow_pos k
  have hmod : c.addr.val &&& m.val = x % 2 ^ k := by
    rw [h.addr, show m.val = 2 ^ k - 1 by omega, Nat.and_two_pow_sub_one_eq_mod]
  rw [applyAlign]
  by_cases hc : x % 2 ^ k = 0
  · rw [if_neg (by rw [and_snd, hmod]; exact not_not.2 hc), roundUp_of_dvd hpos hc]
    exact h
  · rw [if_pos (by rw [and_snd, hmod]; exact hc), roundUp_of_not_dvd hpos hc]
    have hlt := Nat.mod_lt x hpos
    have hkS : 2 ^ k ≤ 2 ^ (32 * scells) := Nat.pow_le_pow_right Nat.two_pos hk
    have hSA := Region.pow_le hle
    have hand : (and c.addr m).1.val = x % 2 ^ k := by rw [and_val, hmod]
    have hone : one.val = 1 := rfl
    have hcells : 1 ≤ acells := by
      obtain rfl | hk0 := Nat.eq_zero_or_pos k
      · exact absurd (Nat.mod_one x) hc
      · omega
    have hoff : (add (sub m (and c.addr m).1).1 one).1.val = 2 ^ k - x % 2 ^ k := by
      rw [add_val hcells, sub_val le_rfl (by rw [hand]; omega), hand, hone,
        Nat.mod_eq_of_lt (by omega)]
      omega
    have hr := skip_reaches hle (add (sub m (and c.addr m).1).1 one).1 h
      (by omega) hb
    rwa [hoff] at hr

/-- The first address of the block that the constraints allow. -/
def firstFit (minAddr : Option (Cells acells)) (al : Option Nat) (lo : Nat) : Nat :=
  roundUp (max lo (minAddr.elim 0 Cells.val)) (al.getD 1)

/-- What `alloc_constrained` finds out about a block. -/
def Considered (maxAddr mask : Option (Cells acells)) (size : Cells scells) (x stop : Nat) :
    Verdict acells → Prop
  | .take addr => addr.val = x ∧ x + size.val ≤ stop ∧ (∀ m ∈ maxAddr, x + size.val ≤ m.val) ∧
      ∀ m ∈ mask, x &&& m.val = 0
  | .stop _ => ∃ m ∈ maxAddr, m.val < x + size.val
  | .next _ => stop < x + size.val ∨ ∃ m ∈ mask, x &&& m.val ≠ 0

/-- The alignment as `alloc_constrained` uses it: a mask. -/
def Masks (scells : Nat) (align : Option (Cells acells)) (al : Option Nat) : Prop :=
  match align, al with
  | some m, some al => MaskOf scells m al
  | none, none => True
  | _, _ => False

theorem constrained_reaches (h : Sound R a) (hb : b ∈ a.list)
    (hmin : ∀ m ∈ minAddr, m.val < R.lo + 2 ^ (32 * scells)) (hal : Masks scells align al) :
    Reaches b (firstFit minAddr al b.addr.val)
      (applyMin a.scells_le minAddr { addr := b.addr, bsize := b.size, fsblock := zero b.size } >>=
        applyAlign a.scells_le align) := by
  have hR := R.hi_lt
  obtain ⟨hlo, hhi⟩ := h.block_inside hb
  have hat : At b { addr := b.addr, bsize := b.size, fsblock := zero b.size } b.addr.val :=
    ⟨rfl, rfl, h.size_pos hb, h.zero_size hb⟩
  have hm := applyMin_reaches a.scells_le hat (by omega) fun m hm => by
    have := hmin m hm
    omega
  have hal1 : 0 < al.getD 1 := by
    match align, al, hal with
    | none, none, _ => exact Nat.one_pos
    | some m, some al, hal =>
      obtain ⟨-, k, -, rfl⟩ := hal
      exact Nat.two_pow_pos k
  generalize applyMin a.scells_le minAddr _ = r at hm
  cases r with
  | error e => exact le_trans hm (le_roundUp _ hal1)
  | ok c =>
    show Reaches b _ (applyAlign a.scells_le align c)
    match align, al, hal with
    | none, none, _ =>
      rw [firstFit, Option.getD_none, roundUp_of_dvd Nat.one_pos (Nat.mod_one _)]
      exact hm
    | some m, some al, hal => exact applyAlign_reaches a.scells_le hm (by omega) hal

theorem consider_spec (maxAddr mask : Option (Cells acells)) (h : Sound R a)
    (hb : b ∈ a.list) (hsize : 0 < size.val)
    (hmin : ∀ m ∈ minAddr, m.val < R.lo + 2 ^ (32 * scells)) (hal : Masks scells align al) :
    Considered maxAddr mask size (firstFit minAddr al b.addr.val) (b.addr.val + b.size.val)
      (consider a.scells_le minAddr maxAddr align mask size b) := by
  have hr := constrained_reaches h hb hmin hal
  have hR := R.hi_lt
  obtain ⟨hlo, hhi⟩ := h.block_inside hb
  rw [consider]
  generalize (applyMin _ _ _ >>= _) = r at hr
  generalize firstFit minAddr al b.addr.val = x at hr
  cases r with
  | error e =>
    refine .inl ?_
    have hr : b.addr.val + b.size.val ≤ x := hr
    omega
  | ok c =>
    obtain ⟨hx, hbs, hpos, hfs⟩ := hr
    simp only [hfs, zero_eq_false.2 hsize, Bool.false_and, Bool.false_eq_true, if_false,
      Bool.not_false, Bool.true_and, cmp_eq, Option.any_eq_true]
    split
    · rename_i hmax
      obtain ⟨m, hm, hgt⟩ := hmax
      rw [Ordering.isGT_iff_eq_gt, compare_gt_iff_gt, add_val a.scells_le, hx] at hgt
      exact ⟨m, hm, lt_of_lt_of_le hgt (Nat.mod_le _ _)⟩
    · rename_i hmax
      split
      · rename_i hmask
        obtain ⟨m, hm, hand⟩ := hmask
        rw [and_snd, hx] at hand
        exact .inr ⟨m, hm, hand⟩
      · rename_i hmask
        split
        · rename_i hlt
          rw [Ordering.isLT_iff_eq_lt, compare_lt_iff_lt] at hlt
          exact .inl (by omega)
        · rename_i hlt
          rw [Ordering.isLT_iff_eq_lt, compare_lt_iff_lt] at hlt
          refine ⟨hx, by omega, fun m hm => not_lt.1 fun hgt => hmax ⟨m, hm, ?_⟩,
            fun m hm => ?_⟩
          · rw [Ordering.isGT_iff_eq_gt, compare_gt_iff_gt, add_val a.scells_le, hx,
              Nat.mod_eq_of_lt (by omega)]
            exact hgt
          · by_contra hne
            exact hmask ⟨m, hm, by rw [and_snd, hx]; exact hne⟩

/-- The addresses from which the constraints allow `size` bytes. -/
structure Allowed (minAddr maxAddr : Option (Cells acells)) (al : Option Nat) (size x : Nat) :
    Prop where
  min : ∀ m ∈ minAddr, m.val ≤ x
  max : ∀ m ∈ maxAddr, x + size ≤ m.val
  aligned : al.getD 1 ∣ x

theorem firstFit_le (h : Allowed minAddr maxAddr al n x) (hlo : lo ≤ x) :
    firstFit minAddr al lo ≤ x := by
  refine roundUp_le (max_le hlo ?_) h.aligned
  cases minAddr with
  | none => exact Nat.zero_le _
  | some m => exact h.min m rfl

theorem firstFit_bounds (minAddr : Option (Cells acells)) (lo : Nat) (hal : Masks scells align al) :
    lo ≤ firstFit minAddr al lo ∧ (∀ m ∈ minAddr, m.val ≤ firstFit minAddr al lo) ∧
      al.getD 1 ∣ firstFit minAddr al lo := by
  have hpos : 0 < al.getD 1 := by
    match align, al, hal with
    | none, none, _ => exact Nat.one_pos
    | some m, some al, hal =>
      obtain ⟨-, k, -, rfl⟩ := hal
      exact Nat.two_pow_pos k
  have hle : max lo (minAddr.elim 0 Cells.val) ≤ firstFit minAddr al lo := le_roundUp _ hpos
  refine ⟨(le_max_left _ _).trans hle, ?_, dvd_roundUp _ _⟩
  rintro m hm
  obtain rfl : minAddr = some m := hm
  exact (le_max_right _ _).trans hle

/-- What the search for memory comes to: the code, the allocator, and the address. -/
inductive Placed (R : Region acells scells) (malloc : Bool) (a : Allocator acells scells)
    (allowed : Nat → Prop) (mask : Option (Cells acells)) (size : Nat) :
    Retcode × Allocator acells scells × Cells acells → Prop
  | place (hp : allowed addr.val) (hmask : ∀ m ∈ mask, addr.val &&& m.val = 0)
      (hfit : Set.Ico addr.val (addr.val + size) ⊆ a.free)
      (hleast : mask = none → ∀ y, allowed y → Set.Ico y (y + size) ⊆ a.free → addr.val ≤ y)
      (hc : Claimed R malloc a (addr.val, addr.val + size) (ret, a')) :
      Placed R malloc a allowed mask size (ret, a', addr)
  | none (h : mask = none → ∀ y, allowed y → ¬ Set.Ico y (y + size) ⊆ a.free) :
      Placed R malloc a allowed mask size (.eOutOfStorage, a, addr)

theorem Sound.fits_iff (h : Sound R a) (hn : 0 < n) : Set.Ico x (x + n) ⊆ a.free ↔
    ∃ b ∈ a.list, b.addr.val ≤ x ∧ x + n ≤ b.addr.val + b.size.val := by
  rw [Allocator.free, h.separated.Ico_subset_iff (Nat.lt_add_of_pos_right hn)]
  constructor
  · rintro ⟨i, hi, h1, h2⟩
    obtain ⟨b, hb, rfl⟩ := List.mem_map.1 hi
    exact ⟨b, hb, h1, h2⟩
  · rintro ⟨b, hb, h1, h2⟩
    exact ⟨b.extent, List.mem_map_of_mem hb, h1, h2⟩

theorem constrainedLoop_placed (h : Sound R a) (hsize : 0 < size.val)
    (hmin : ∀ m ∈ minAddr, m.val < R.lo + 2 ^ (32 * scells)) (hal : Masks scells align al)
    (hl : a.list = before ++ l)
    (hbefore : mask = none → ∀ b ∈ before, ∀ y, Allowed minAddr maxAddr al size.val y →
      b.addr.val ≤ y → ¬ y + size.val ≤ b.addr.val + b.size.val) (addr : Cells acells) :
    Placed R malloc a (Allowed minAddr maxAddr al size.val) mask size.val
      (constrainedLoop malloc a minAddr maxAddr align mask size l addr) := by
  induction l generalizing before addr with
  | nil =>
    refine .none fun hmask y hy hf => ?_
    obtain ⟨b, hb, h1, h2⟩ := (h.fits_iff hsize).1 hf
    rw [hl, List.append_nil] at hb
    exact hbefore hmask b hb y hy h1 h2
  | cons b l ih =>
    have hb : b ∈ a.list := by rw [hl]; simp
    -- a block further on lies behind all of this one
    have hafter : ∀ c ∈ l, b.addr.val + b.size.val < c.addr.val := by
      intro c hc
      have hs := h.separated
      rw [Allocator.extents, hl, List.map_append, List.map_cons] at hs
      obtain ⟨-, hs, -⟩ := Separated.append_iff.1 hs
      exact (Separated.cons_iff.1 hs).2.1 c.extent (List.mem_map_of_mem hc)
    have hspec := consider_spec maxAddr mask h hb hsize hmin hal
    obtain ⟨hx1, hx2, hx3⟩ := firstFit_bounds minAddr b.addr.val hal
    have hleast : ∀ y, Allowed minAddr maxAddr al size.val y → b.addr.val ≤ y →
      firstFit minAddr al b.addr.val ≤ y := fun y => firstFit_le
    generalize firstFit minAddr al b.addr.val = x at hspec hx1 hx2 hx3 hleast
    rw [constrainedLoop]
    generalize consider a.scells_le minAddr maxAddr align mask size b = v at hspec
    -- where memory for `y` is free, it is in this block or in one further on
    have hwhere : mask = none → ∀ y, Allowed minAddr maxAddr al size.val y →
        Set.Ico y (y + size.val) ⊆ a.free → x ≤ y := by
      intro hmask y hy hf
      obtain ⟨c, hc, h1, h2⟩ := (h.fits_iff hsize).1 hf
      rw [hl] at hc
      obtain hc | hc := List.mem_append.1 hc
      · exact absurd h2 (hbefore hmask c hc y hy h1)
      · refine hleast y hy ?_
        obtain rfl | hc := List.mem_cons.1 hc
        · exact h1
        · have := hafter c hc
          omega
    cases v with
    | next addr' =>
      have hl' : a.list = (before ++ [b]) ++ l := by
        rw [hl, List.append_assoc, List.singleton_append]
      refine ih hl' (fun hmask c hc y hy h1 => ?_) addr'
      obtain hc | hc := List.mem_append.1 hc
      · exact hbefore hmask c hc y hy h1
      · rw [List.mem_singleton.1 hc] at h1 ⊢
        have hxy := hleast y hy h1
        obtain hlt | ⟨m, hm, -⟩ := hspec
        · omega
        · rw [hmask] at hm
          cases hm
    | stop addr' =>
      obtain ⟨m, hm, hlt⟩ := hspec
      refine .none fun hmask y hy hf => ?_
      have hxy := hwhere hmask y hy hf
      have := hy.max m hm
      omega
    | take addr' =>
      obtain ⟨rfl, hfit, hmax, hmask⟩ := hspec
      have hR := R.hi_lt
      have hin := h.block_inside hb
      exact .place ⟨hx2, hmax, hx3⟩ hmask ((h.fits_iff hsize).2 ⟨b, hb, hx1, hfit⟩)
        hwhere (allocFixed_claimed malloc h hsize (by omega))

/-- The alignments that `alloc_constrained` is made for: powers of two that the size cells can
hold, or the number behind them. -/
def Power (scells : Nat) (align : Cells acells) : Prop := ∃ k ≤ 32 * scells, align.val = 2 ^ k

theorem masks_of_power (halign : ∀ l ∈ align, Power scells l) :
    Masks scells (align.map fun align => (sub align one).1) (align.map Cells.val) := by
  cases align with
  | none => trivial
  | some l =>
    obtain ⟨k, hk, hl⟩ := halign l rfl
    have hpos := Nat.two_pow_pos k
    have hcells : 1 ≤ acells := by
      obtain rfl | h := Nat.eq_zero_or_pos acells
      · have := l.val_lt
        rw [Nat.mul_zero, Nat.pow_zero] at this
        omega
      · exact h
    have hone : one.val = 1 := rfl
    refine ⟨?_, k, hk, hl⟩
    rw [sub_val hcells (by omega), hone]
    omega

/-- `alloc_constrained` finds the least address at which the constraints and the free memory allow
the claim, and fails only where there is none. With a mask it may miss some. -/
theorem allocConstrained_placed (malloc : Bool)
    (minAddr maxAddr align mask : Option (Cells acells)) (h : Sound R a) (hsize : 0 < size.val)
    (hmin : ∀ m ∈ minAddr, m.val < R.lo + 2 ^ (32 * scells))
    (halign : ∀ l ∈ align, Power scells l) (addr : Cells acells) :
    Placed R malloc a (Allowed minAddr maxAddr (align.map Cells.val) size.val) mask size.val
      ((allocConstrained malloc a minAddr maxAddr align mask size addr).1,
        (allocConstrained malloc a minAddr maxAddr align mask size addr).2.1,
        (allocConstrained malloc a minAddr maxAddr align mask size addr).2.2.1) :=
  constrainedLoop_placed h hsize hmin (masks_of_power halign) rfl
    (fun _ _ hb => absurd hb List.not_mem_nil) addr

/-- Without a mask and with memory for another block, the search takes the least address at which
the constraints and the free memory allow the claim, and fails only where there is none. -/
theorem constrained_least (minAddr maxAddr align : Option (Cells acells)) (h : Sound R a)
    (hsize : 0 < size.val)
    (hmin : ∀ m ∈ minAddr, m.val < R.lo + 2 ^ (32 * scells))
    (halign : ∀ l ∈ align, Power scells l) (addr : Cells acells) :
    (∃ a' addr' align', allocConstrained true a minAddr maxAddr align none size addr =
        (.noError, a', addr', align') ∧
      IsLeast {x | Allowed minAddr maxAddr (align.map Cells.val) size.val x ∧
        Set.Ico x (x + size.val) ⊆ a.free} addr'.val ∧
      Sound R a' ∧ a'.free = a.free \ Set.Ico addr'.val (addr'.val + size.val)) ∨
    (∃ addr' align', allocConstrained true a minAddr maxAddr align none size addr =
        (.eOutOfStorage, a, addr', align') ∧
      ∀ x, Allowed minAddr maxAddr (align.map Cells.val) size.val x →
        ¬ Set.Ico x (x + size.val) ⊆ a.free) := by
  have hp := allocConstrained_placed true minAddr maxAddr align none h hsize hmin halign addr
  generalize allocConstrained true a minAddr maxAddr align none size addr = r at hp ⊢
  obtain ⟨ret, a', addr', align'⟩ := r
  simp only at hp
  cases hp with
  | none hn => exact .inr ⟨addr', align', rfl, hn rfl⟩
  | place hp _ hfit hleast hc =>
    cases hc with
    | taken hi => exact absurd hfit hi
    | memory _ hm => cases hm
    | done _ hs hf =>
      exact .inl ⟨a', addr', align', rfl, ⟨⟨hp, hfit⟩, fun x hx => hleast rfl x hx.1 hx.2⟩, hs, hf⟩

theorem constrained_least_aligned :
    let a : Allocator 2 1 := ⟨[⟨⟨[0x10, 1], rfl⟩, ⟨[0x4000], rfl⟩⟩], by decide⟩
    let r := allocConstrained true a none none (some ⟨[0x1000, 0], rfl⟩) none ⟨[0x2000], rfl⟩
      ⟨[0, 0], rfl⟩
    r.2.2.1.val = 0x100001000 ∧
      IsLeast {x | Allowed (none : Option (Cells 2)) none (some 0x1000) 0x2000 x ∧
        Set.Ico x (x + 0x2000) ⊆ a.free} r.2.2.1.val := by
  intro a r
  have hs : Sound ⟨0x100000000, 0x100010000, by decide, by decide⟩ a := by
    refine ⟨.singleton (by decide), ?_⟩
    intro i hi
    rw [List.mem_singleton.1 hi]
    exact ⟨by decide, by decide⟩
  refine ⟨by decide, ?_⟩
  obtain ⟨a', addr', align', he, hl, -⟩ | ⟨addr', align', he, -⟩ :=
    constrained_least none none (some ⟨[0x1000, 0], rfl⟩) hs
      (show 0 < Cells.val (⟨[0x2000], rfl⟩ : Cells 1) by decide) (fun m hm => by cases hm)
      (fun l hl => by cases hl; exact ⟨12, by decide, by decide⟩) ⟨[0, 0], rfl⟩
  · rw [show r = _ from he]
    exact hl
  · have hret : r.1 = .eOutOfStorage := congrArg (·.1) he
    exact absurd hret (by decide)

/-- The plain first fit is the constrained one without constraints. Where nothing fits the two
leave different things in `addr`. -/
theorem allocBlock_eq (malloc : Bool) (a : Allocator acells scells) (size : Cells scells)
    (addr : Cells acells) :
    (allocBlock malloc a size addr).1 =
        (allocConstrained malloc a none none none none size addr).1 ∧
      (allocBlock malloc a size addr).2.1 =
        (allocConstrained malloc a none none none none size addr).2.1 ∧
      ((allocBlock malloc a size addr).1 ≠ .eOutOfStorage →
        (allocBlock malloc a size addr).2.2 =
          (allocConstrained malloc a none none none none size addr).2.2.1) := by
  have hloop : ∀ (l : List (Block acells scells)) (ad ad' : Cells acells),
      (blockLoop malloc a size l ad).1 =
        (constrainedLoop malloc a none none none none size l ad').1 ∧
      (blockLoop malloc a size l ad).2.1 =
        (constrainedLoop malloc a none none none none size l ad').2.1 ∧
      ((blockLoop malloc a size l ad).1 ≠ .eOutOfStorage →
        (blockLoop malloc a size l ad).2.2 =
          (constrainedLoop malloc a none none none none size l ad').2.2) := by
    intro l
    induction l with
    | nil => exact fun _ _ => ⟨rfl, rfl, (absurd rfl ·)⟩
    | cons b l ih =>
      intro ad ad'
      have hc : consider a.scells_le none none none none size b =
          if zero size && !zero b.size then .next b.addr
          else if !zero b.size && (cmp b.size size).isLT then .next b.addr else .take b.addr := rfl
      rw [blockLoop, constrainedLoop, hc]
      by_cases h1 : (zero size && !zero b.size) = true
      · rw [if_pos h1, if_pos h1]
        exact ih _ _
      · rw [if_neg h1, if_neg h1]
        cases zero b.size with
        | true => exact ⟨rfl, rfl, fun _ => rfl⟩
        | false =>
          cases cmp b.size size with
          | lt => exact ih _ _
          | eq => exact ⟨rfl, rfl, fun _ => rfl⟩
          | gt => exact ⟨rfl, rfl, fun _ => rfl⟩
  exact hloop a.list addr addr

theorem allocBlock_placed (malloc : Bool) (h : Sound R a) (hsize : 0 < size.val)
    (addr : Cells acells) :
    Placed R malloc a (fun _ => True) none size.val (allocBlock malloc a size addr) := by
  obtain ⟨h1, h2, h3⟩ := allocBlock_eq malloc a size addr
  have hp := allocConstrained_placed malloc none none none none h hsize
    (fun m hm => by cases hm) (fun m hm => by cases hm) addr
  have hall : ∀ y, Allowed (none : Option (Cells acells)) none none size.val y :=
    fun y => ⟨(fun m hm => by cases hm), (fun m hm => by cases hm), Nat.one_dvd y⟩
  rw [← h1, ← h2] at hp
  generalize (allocConstrained malloc a none none none none size addr).2.2.1 = addr' at hp h3
  generalize allocBlock malloc a size addr = r at hp h3
  obtain ⟨ret, a', addr''⟩ := r
  cases hp with
  | none hn => exact .none fun hm y _ => hn hm y (hall y)
  | place _ hmask hfit hleast hc =>
    have hne : ret ≠ .eOutOfStorage := by
      rintro rfl
      cases hc with
      | taken hi => exact hi hfit
    obtain rfl : addr'' = addr' := h3 hne
    exact .place trivial hmask hfit (fun hm y _ => hleast hm y (hall y)) hc

end Pegasos2.Alloc
