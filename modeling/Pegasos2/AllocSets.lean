import Pegasos2.Alloc
import Pegasos2.Intervals
import Pegasos2.Packing

namespace Pegasos2.Alloc
open Intervals
set_option autoImplicit true

variable {acells scells : Nat}

/-- The addresses that a block of a nonzero size stands for. -/
def Block.extent (b : Block acells scells) : Nat × Nat := (b.addr.val, b.addr.val + b.size.val)

def Allocator.extents (a : Allocator acells scells) : List (Nat × Nat) := a.list.map Block.extent

/-- The free addresses. -/
def Allocator.free (a : Allocator acells scells) : Set Nat := cover a.extents

/-- The addresses that an allocator is there for: less than the size cells can count, which leaves
out a block of full size, written as size zero, and not up to the last address. -/
structure Region (acells scells : Nat) where
  lo : Nat
  hi : Nat
  hi_lt : hi < 2 ^ (32 * acells)
  len_lt : hi - lo < 2 ^ (32 * scells)

/-- The blocks ascend, lie in the region, and are as large as they can be. -/
structure Sound (R : Region acells scells) (a : Allocator acells scells) : Prop where
  separated : Separated a.extents
  inside : ∀ i ∈ a.extents, R.lo ≤ i.1 ∧ i.2 ≤ R.hi

variable {R : Region acells scells} {a : Allocator acells scells} {addr : Cells acells}
  {size : Cells scells}

theorem Region.pow_le (h : scells ≤ acells) : 2 ^ (32 * scells) ≤ 2 ^ (32 * acells) :=
  Nat.pow_le_pow_right Nat.two_pos (Nat.mul_le_mul_left _ h)

namespace Sound

theorem size_pos (h : Sound R a) (hb : b ∈ a.list) : 0 < b.size.val := by
  have hlt := h.separated.nonempty _ (List.mem_map_of_mem hb)
  simp only [Block.extent] at hlt
  omega

theorem zero_size (h : Sound R a) (hb : b ∈ a.list) : zero b.size = false :=
  zero_eq_false.2 (h.size_pos hb)

theorem block_inside (h : Sound R a) (hb : b ∈ a.list) :
    R.lo ≤ b.addr.val ∧ b.addr.val + b.size.val ≤ R.hi :=
  h.inside _ (List.mem_map_of_mem hb)

theorem free_subset (h : Sound R a) : a.free ⊆ Set.Ico R.lo R.hi := by
  rintro x ⟨i, hi, h1, h2⟩
  obtain ⟨hlo, hhi⟩ := h.inside i hi
  exact ⟨hlo.trans h1, h2.trans_le hhi⟩

end Sound

theorem findSpot_append (addr : Cells acells) (passed l : List (Block acells scells)) :
    (findSpot addr passed l).1.reverse ++ (findSpot addr passed l).2 = passed.reverse ++ l := by
  induction l generalizing passed with
  | nil => rfl
  | cons b l ih =>
    rw [findSpot]
    split
    · rfl
    · rw [ih, List.reverse_cons, List.append_assoc, List.singleton_append]

theorem findSpot_passed (addr : Cells acells) (passed l : List (Block acells scells))
    (h : ∀ b ∈ passed, b.addr.val < addr.val) :
    ∀ b ∈ (findSpot addr passed l).1, b.addr.val < addr.val := by
  induction l generalizing passed with
  | nil => exact h
  | cons b l ih =>
    rw [findSpot]
    split
    · exact h
    · rename_i hc
      refine ih _ (List.forall_mem_cons.2 ⟨?_, h⟩)
      rw [cmp_eq, Nat.isLE_compare] at hc
      exact not_le.1 hc

theorem findSpot_head (addr : Cells acells) (passed l : List (Block acells scells))
    (h : (findSpot addr passed l).2 = b :: rest) : addr.val ≤ b.addr.val := by
  induction l generalizing passed with
  | nil => cases h
  | cons c l ih =>
    rw [findSpot] at h
    split at h
    · rename_i hc
      cases h
      rwa [cmp_eq, Nat.isLE_compare] at hc
    · exact ih _ h

/-- The list around an address: the blocks below it, the last one first, and the others. -/
structure Spot (a : Allocator acells scells) (addr : Cells acells)
    (passed rest : List (Block acells scells)) : Prop where
  list_eq : a.list = passed.reverse ++ rest
  below : ∀ b ∈ passed, b.addr.val < addr.val
  above : ∀ b ∈ rest, addr.val ≤ b.addr.val

theorem Sound.spot (h : Sound R a) (addr : Cells acells) :
    Spot a addr (findSpot addr [] a.list).1 (findSpot addr [] a.list).2 := by
  have he := findSpot_append addr [] a.list
  rw [List.reverse_nil, List.nil_append] at he
  refine ⟨he.symm, findSpot_passed addr [] _ (fun _ hb => absurd hb List.not_mem_nil), ?_⟩
  generalize hr : (findSpot addr [] a.list).2 = rest at he
  cases rest with
  | nil => exact fun _ hb => absurd hb List.not_mem_nil
  | cons b rest =>
    have hb := findSpot_head addr [] _ hr
    refine List.forall_mem_cons.2 ⟨hb, fun c hc => ?_⟩
    have hs := h.separated
    rw [Allocator.extents, ← he, List.map_append, List.map_cons] at hs
    obtain ⟨-, hs, -⟩ := Separated.append_iff.1 hs
    obtain ⟨hpos, hbc, -⟩ := Separated.cons_iff.1 hs
    have hlt := hbc _ (List.mem_map_of_mem hc)
    simp only [Block.extent] at hlt hpos
    omega

theorem Spot.extents (h : Spot a addr passed rest) :
    a.extents = (passed.map Block.extent).reverse ++ rest.map Block.extent := by
  rw [Allocator.extents, h.list_eq, List.map_append, List.map_reverse]

/-- The blocks behind one that starts above the address start above it as well. -/
theorem Sound.behind (h : Sound R a) (hsp : Spot a addr passed (b :: rest))
    (hlt : addr.val < b.addr.val) : ∀ c ∈ b :: rest, addr.val < c.addr.val := by
  refine List.forall_mem_cons.2 ⟨hlt, fun c hc => ?_⟩
  have hs := h.separated
  rw [hsp.extents, List.map_cons] at hs
  obtain ⟨-, hs, -⟩ := Separated.append_iff.1 hs
  obtain ⟨hpos, hbc, -⟩ := Separated.cons_iff.1 hs
  have hbc := hbc _ (List.mem_map_of_mem hc)
  simp only [Block.extent] at hbc hpos
  omega

/-- What a claim of the addresses of `i` comes to: the code, and the allocator afterwards. -/
inductive Claimed (R : Region acells scells) (malloc : Bool) (a : Allocator acells scells)
    (i : Nat × Nat) : Retcode × Allocator acells scells → Prop
  | done (hi : Set.Ico i.1 i.2 ⊆ a.free) (hs : Sound R a')
      (hf : a'.free = a.free \ Set.Ico i.1 i.2) : Claimed R malloc a i (.noError, a')
  | taken (hi : ¬ Set.Ico i.1 i.2 ⊆ a.free) : Claimed R malloc a i (.eOutOfStorage, a)
  | memory (hi : Set.Ico i.1 i.2 ⊆ a.free) (hm : malloc = false) :
      Claimed R malloc a i (.eOutOfMemory, a)

theorem Sound.carve (h : Sound R a) (a' : Allocator acells scells)
    (he : a.extents = l ++ i :: r) (ha : i.1 ≤ lo) (hab : lo < hi) (hb : hi ≤ i.2)
    (he' : a'.extents = l ++ carve i lo hi ++ r) :
    Sound R a' ∧ a'.free = a.free \ Set.Ico lo hi := by
  have hs := h.separated
  rw [he] at hs
  refine ⟨⟨he' ▸ hs.carve ha hab hb, fun j hj => ?_⟩, ?_⟩
  · have hin := h.inside
    rw [he] at hin
    rw [he', List.mem_append, List.mem_append] at hj
    obtain (hj | hj) | hj := hj
    · exact hin j (List.mem_append_left _ hj)
    · obtain ⟨hlo, hhi⟩ := hin i (List.mem_append_right _ List.mem_cons_self)
      obtain ⟨rfl, hlt⟩ | ⟨rfl, hlt⟩ := mem_carve.1 hj
      · exact ⟨hlo, hab.le.trans (hb.trans hhi)⟩
      · exact ⟨hlo.trans (ha.trans hab.le), hhi⟩
    · exact hin j (List.mem_append_right _ (List.mem_cons_of_mem _ hj))
  · rw [Allocator.free, Allocator.free, he, he']
    exact cover_carve hs ha hab hb

theorem allocAtStart_claimed (h : Sound R a) (hsp : Spot a addr passed (b :: rest))
    (hsize : 0 < size.val) (hstart : addr.val = b.addr.val) :
    Claimed R malloc a (addr.val, addr.val + size.val) (allocAtStart a size passed b rest) := by
  have hb : b ∈ a.list := by
    rw [hsp.list_eq]
    exact List.mem_append_right _ List.mem_cons_self
  have he := hsp.extents
  rw [List.map_cons] at he
  have hlt : addr.val < addr.val + size.val := Nat.lt_add_of_pos_right hsize
  have hrest : ∀ j ∈ rest.map Block.extent, addr.val < j.1 := by
    have hs := h.separated
    rw [he] at hs
    obtain ⟨-, hs, -⟩ := Separated.append_iff.1 hs
    obtain ⟨hpos, hj, -⟩ := Separated.cons_iff.1 hs
    intro j hj'
    have := hj j hj'
    simp only [Block.extent] at this hpos
    omega
  have hfits : Set.Ico addr.val (addr.val + size.val) ⊆ a.free ↔ size.val ≤ b.size.val := by
    have hs := h.separated
    rw [he] at hs
    rw [Allocator.free, he, hs.Ico_subset_iff_of_split hlt hstart.ge hrest]
    show addr.val + size.val ≤ b.addr.val + b.size.val ↔ _
    omega
  rw [allocAtStart, h.zero_size hb, cmp_eq]
  obtain hc | hc | hc := lt_trichotomy b.size.val size.val
  · rw [compare_lt_iff_lt.2 hc]
    exact .taken (by rw [hfits]; omega)
  · rw [compare_eq_iff_eq.2 hc]
    obtain ⟨hs, hf⟩ := h.carve { a with list := passed.reverse ++ rest } he hstart.ge hlt
      (by simp only [Block.extent]; omega) (by
        rw [Intervals.carve, if_neg (by simp only [Block.extent]; omega),
          if_neg (by simp only [Block.extent]; omega)]
        simp only [Allocator.extents, List.map_append, List.map_reverse, List.append_nil])
    exact .done (hfits.2 hc.ge) hs hf
  · rw [compare_gt_iff_gt.2 hc]
    have hin := h.block_inside hb
    have hR := R.hi_lt
    obtain ⟨hs, hf⟩ := h.carve { a with list := passed.reverse ++
      { addr := (add b.addr size).1, size := (sub b.size size).1 } :: rest } he hstart.ge hlt
      (by simp only [Block.extent]; omega) (by
        rw [Intervals.carve, if_neg (by simp only [Block.extent]; omega),
          if_pos (by simp only [Block.extent]; omega)]
        simp only [Allocator.extents, List.map_append, List.map_reverse, List.map_cons,
          Block.extent, add_val a.scells_le, sub_val le_rfl hc.le, List.nil_append,
          List.append_assoc, List.singleton_append]
        rw [Nat.mod_eq_of_lt (by omega)]
        congr 3
        · omega
        · omega)
    exact .done (hfits.2 (le_of_lt hc)) hs hf

/-- The sizes of the blocks in front of and behind memory inside of a block. -/
theorem split_sizes (hle : scells ≤ acells) {p : Block acells scells}
    (hpa : p.addr.val ≤ addr.val) (hpend : p.addr.val + p.size.val < 2 ^ (32 * acells))
    (hc : addr.val + size.val < p.addr.val + p.size.val) :
    (add addr size).1.val = addr.val + size.val ∧
      ((sub (add p.addr p.size).1 (add addr size).1).1.low scells hle).val =
        p.addr.val + p.size.val - (addr.val + size.val) ∧
      (sub (sub p.size size).1 ((sub (add p.addr p.size).1 (add addr size).1).1.low scells
        hle)).1.val = addr.val - p.addr.val := by
  have hbaddr : (add addr size).1.val = addr.val + size.val := by
    rw [add_val hle, Nat.mod_eq_of_lt (hc.trans hpend)]
  have hend : (add p.addr p.size).1.val = p.addr.val + p.size.val := by
    rw [add_val hle, Nat.mod_eq_of_lt hpend]
  have ht1 : (sub (add p.addr p.size).1 (add addr size).1).1.val =
      p.addr.val + p.size.val - (addr.val + size.val) := by
    rw [sub_val le_rfl (by omega), hend, hbaddr]
  have hbsize : ((sub (add p.addr p.size).1 (add addr size).1).1.low scells hle).val =
      p.addr.val + p.size.val - (addr.val + size.val) := by
    have hlt := p.size.val_lt
    rw [Cells.low_val, ht1, Nat.mod_eq_of_lt (by omega)]
  have hrem : (sub p.size size).1.val = p.size.val - size.val := sub_val le_rfl (by omega)
  refine ⟨hbaddr, hbsize, ?_⟩
  rw [sub_val le_rfl (by omega), hrem, hbsize]
  omega

theorem allocInside_claimed (h : Sound R a) (hsp : Spot a addr passed rest) (hsize : 0 < size.val)
    (hend : addr.val + size.val < 2 ^ (32 * acells)) (hrest : ∀ b ∈ rest, addr.val < b.addr.val) :
    Claimed R malloc a (addr.val, addr.val + size.val)
      (allocInside malloc a addr size passed rest) := by
  have hlt : addr.val < addr.val + size.val := Nat.lt_add_of_pos_right hsize
  have he := hsp.extents
  have habove : ∀ j ∈ rest.map Block.extent, addr.val < j.1 := by
    intro j hj
    obtain ⟨b, hb, rfl⟩ := List.mem_map.1 hj
    exact hrest b hb
  cases passed with
  | nil =>
    rw [allocInside]
    refine .taken ?_
    rw [Allocator.free, he, List.map_nil, List.reverse_nil, List.nil_append]
    exact Separated.not_Ico_subset hlt habove
  | cons p passed =>
    have hp : p ∈ a.list := by
      rw [hsp.list_eq, List.reverse_cons, List.append_assoc]
      exact List.mem_append_right _ List.mem_cons_self
    have hpa : p.addr.val < addr.val := hsp.below p List.mem_cons_self
    have hpos := h.size_pos hp
    obtain ⟨hlo, hhi⟩ := h.block_inside hp
    have hR := R.hi_lt
    rw [List.map_cons, List.reverse_cons, List.append_assoc, List.singleton_append] at he
    have hfits : Set.Ico addr.val (addr.val + size.val) ⊆ a.free ↔
        addr.val + size.val ≤ p.addr.val + p.size.val := by
      have hs := h.separated
      rw [he] at hs
      rw [Allocator.free, he]
      exact hs.Ico_subset_iff_of_split hlt hpa.le habove
    rw [allocInside, h.zero_size hp, addcmp_eq a.scells_le]
    simp only [Option.map_some, Option.getD_some]
    rw [Nat.mod_eq_of_lt (show p.addr.val + p.size.val < 2 ^ (32 * acells) by omega),
      Nat.mod_eq_of_lt hend]
    obtain hc | hc | hc := lt_trichotomy (p.addr.val + p.size.val) (addr.val + size.val)
    · rw [compare_lt_iff_lt.2 hc]
      exact .taken (by rw [hfits]; omega)
    · rw [compare_eq_iff_eq.2 hc]
      obtain ⟨hs, hf⟩ := h.carve { a with
        list := passed.reverse ++ { p with size := (sub p.size size).1 } :: rest } he hpa.le hlt
        hc.ge (by
          rw [Intervals.carve, if_pos (show p.extent.1 < addr.val from hpa),
            if_neg (by simp only [Block.extent]; omega)]
          simp only [Allocator.extents, List.map_append, List.map_reverse, List.map_cons,
            Block.extent, sub_val le_rfl (show size.val ≤ p.size.val by omega), List.append_nil,
            List.append_assoc, List.singleton_append]
          congr 3
          omega)
      exact .done (hfits.2 hc.ge) hs hf
    · rw [compare_gt_iff_gt.2 hc]
      cases malloc with
      | false => exact .memory (hfits.2 (le_of_lt hc)) rfl
      | true =>
        obtain ⟨hbaddr, hbsize, hpsize⟩ := split_sizes a.scells_le hpa.le (by omega) hc
        obtain ⟨hs, hf⟩ := h.carve { a with list := passed.reverse ++
          { p with size := (sub (sub p.size size).1 ((sub (add p.addr p.size).1
            (add addr size).1).1.low scells a.scells_le)).1 } ::
          { addr := (add addr size).1, size := (sub (add p.addr p.size).1
            (add addr size).1).1.low scells a.scells_le } :: rest } he hpa.le hlt (le_of_lt hc) (by
            rw [Intervals.carve, if_pos (show p.extent.1 < addr.val from hpa),
              if_pos (show addr.val + size.val < p.extent.2 from hc)]
            simp only [Allocator.extents, List.map_append, List.map_reverse, List.map_cons,
              Block.extent, hpsize, hbaddr, hbsize, List.append_assoc, List.cons_append,
              List.nil_append, Nat.add_sub_cancel' hpa.le, Nat.add_sub_cancel' (le_of_lt hc)])
        exact .done (hfits.2 (le_of_lt hc)) hs hf

/-- A claim of fixed addresses is granted exactly when they are all free, and takes exactly
them. -/
theorem allocFixed_claimed (malloc : Bool) (h : Sound R a) (hsize : 0 < size.val)
    (hend : addr.val + size.val < 2 ^ (32 * acells)) :
    Claimed R malloc a (addr.val, addr.val + size.val) (allocFixed malloc a addr size) := by
  have hsp := h.spot addr
  rw [allocFixed, zero_eq_false.2 hsize]
  generalize findSpot addr [] a.list = s at hsp
  obtain ⟨passed, rest⟩ := s
  cases rest with
  | nil => exact allocInside_claimed h hsp hsize hend fun _ hb => absurd hb List.not_mem_nil
  | cons b rest =>
    have hb := hsp.above b List.mem_cons_self
    simp only [Bool.false_and, Bool.false_eq_true, if_false, cmp_eq]
    by_cases hc : addr.val = b.addr.val
    · rw [compare_eq_iff_eq.2 hc]
      exact allocAtStart_claimed h hsp hsize hc
    · have hlt : addr.val < b.addr.val := lt_of_le_of_ne hb hc
      rw [compare_lt_iff_lt.2 hlt]
      exact allocInside_claimed h hsp hsize hend (h.behind hsp hlt)

theorem Claimed.noError_iff (h : Claimed R true a i r) :
    r.1 = .noError ↔ Set.Ico i.1 i.2 ⊆ a.free := by
  cases h with
  | done hi => exact iff_of_true rfl hi
  | taken hi => exact iff_of_false (Retcode.noConfusion ·) hi
  | memory _ hm => exact absurd hm (by decide)

/-- The claim inside or behind the block `p`, when its end wraps around. -/
theorem allocInside_wraps (h : Sound R a) (hp : p ∈ a.list)
    (hwrap : 2 ^ (32 * acells) ≤ addr.val + size.val) :
    (allocInside true a addr size (p :: passed) rest).1 = .noError ↔
      addr.val + size.val - 2 ^ (32 * acells) ≤ p.addr.val + p.size.val := by
  have hR := R.hi_lt
  have hin := h.block_inside hp
  have haddr := addr.val_lt
  have hsz := size.val_lt.trans_le (Region.pow_le a.scells_le)
  have hmod : (addr.val + size.val) % 2 ^ (32 * acells) =
      addr.val + size.val - 2 ^ (32 * acells) := by
    rw [Nat.mod_eq_sub_mod hwrap, Nat.mod_eq_of_lt (by omega)]
  rw [allocInside, h.zero_size hp, addcmp_eq a.scells_le]
  simp only [Option.map_some, Option.getD_some]
  rw [Nat.mod_eq_of_lt (show p.addr.val + p.size.val < 2 ^ (32 * acells) by omega), hmod]
  obtain hc | hc | hc := lt_trichotomy (p.addr.val + p.size.val)
    (addr.val + size.val - 2 ^ (32 * acells))
  · rw [compare_lt_iff_lt.2 hc]
    exact iff_of_false (Retcode.noConfusion ·) (not_le.2 hc)
  · rw [compare_eq_iff_eq.2 hc]
    exact iff_of_true rfl hc.ge
  · rw [compare_gt_iff_gt.2 hc]
    exact iff_of_true rfl (le_of_lt hc)

/-- What a release of the addresses of `i` comes to. -/
inductive Released (R : Region acells scells) (malloc : Bool) (a : Allocator acells scells)
    (i : Nat × Nat) : Retcode × Allocator acells scells → Prop
  | done (hi : Disjoint (Set.Ico i.1 i.2) a.free) (hs : Sound R a')
      (hf : a'.free = a.free ∪ Set.Ico i.1 i.2) : Released R malloc a i (.noError, a')
  | free (hi : ¬ Disjoint (Set.Ico i.1 i.2) a.free) : Released R malloc a i (.eBadArgument, a)
  | memory (hi : Disjoint (Set.Ico i.1 i.2) a.free) (hm : malloc = false) :
      Released R malloc a i (.eOutOfMemory, a)

theorem joined (hs : Separated (l ++ r)) (hin : ∀ j ∈ l ++ r, R.lo ≤ j.1 ∧ j.2 ≤ R.hi)
    (hi : i.1 < i.2) (hlo : R.lo ≤ i.1) (hhi : i.2 ≤ R.hi) (hl : ∀ j ∈ l, j.2 < i.1)
    (hr : ∀ j ∈ r, i.2 ≤ j.1) (he : a.extents = l ++ joinRight i r) :
    Sound R a ∧ a.free = cover (l ++ r) ∪ Set.Ico i.1 i.2 := by
  obtain ⟨-, hsr, -⟩ := Separated.append_iff.1 hs
  refine ⟨⟨he ▸ hs.joinRight hi hl hr, fun j hj => ?_⟩, ?_⟩
  · rw [he] at hj
    obtain hj | hj := List.mem_append.1 hj
    · exact hin j (List.mem_append_left _ hj)
    · cases r with
      | nil =>
        rw [List.mem_singleton.1 hj]
        exact ⟨hlo, hhi⟩
      | cons k r =>
        have hk := hin k (List.mem_append_right _ List.mem_cons_self)
        rw [joinRight] at hj
        split at hj
        · obtain rfl | hj := List.mem_cons.1 hj
          · exact ⟨hlo, hk.2⟩
          · exact hin j (List.mem_append_right _ (List.mem_cons_of_mem _ hj))
        · obtain rfl | hj := List.mem_cons.1 hj
          · exact ⟨hlo, hhi⟩
          · exact hin j (List.mem_append_right _ hj)
  · rw [Allocator.free, he, cover_append, cover_append, cover_joinRight hi hsr,
      Set.union_assoc, Set.union_comm (cover r)]

theorem joined_left (hs : Separated (l ++ p :: r))
    (hin : ∀ j ∈ l ++ p :: r, R.lo ≤ j.1 ∧ j.2 ≤ R.hi)
    (hp : p.2 < hi) (hhi : hi ≤ R.hi) (hr : ∀ j ∈ r, hi ≤ j.1)
    (he : a.extents = l ++ joinRight (p.1, hi) r) :
    Sound R a ∧ a.free = cover (l ++ p :: r) ∪ Set.Ico p.2 hi := by
  obtain ⟨hsl, hpr, hlpr⟩ := Separated.append_iff.1 hs
  obtain ⟨hpp, -, hsr⟩ := Separated.cons_iff.1 hpr
  have hsub : ∀ j ∈ l ++ r, j ∈ l ++ p :: r := fun j hj => by
    obtain hj | hj := List.mem_append.1 hj
    · exact List.mem_append_left _ hj
    · exact List.mem_append_right _ (List.mem_cons_of_mem _ hj)
  have hlr : Separated (l ++ r) := Separated.append_iff.2
    ⟨hsl, hsr, fun i hi j hj => hlpr i hi j (List.mem_cons_of_mem _ hj)⟩
  obtain ⟨h1, h2⟩ := joined (i := (p.1, hi)) hlr (fun j hj => hin j (hsub j hj)) (hpp.trans hp)
    (hin p (List.mem_append_right _ List.mem_cons_self)).1 hhi
    (fun j hj => hlpr j hj p List.mem_cons_self) hr he
  refine ⟨h1, h2.trans ?_⟩
  rw [← Set.Ico_union_Ico_eq_Ico hpp.le hp.le, cover_append, cover_append, cover_cons]
  ext x
  simp only [Set.mem_union]
  tauto

/-- How the end of the freed memory lies to the blocks behind it. -/
def Behind (x : Ordering) (stop : Nat) : List (Block acells scells) → Prop
  | b :: _ => x = compare stop b.addr.val
  | [] => x = .lt

theorem consolidate_extents (h : Sound R a) (hl : a.list = passed.reverse ++ p :: rest)
    (hp : p.addr.val + p.size.val = addr.val) (hhi : addr.val + size.val ≤ R.hi)
    (hx : Behind x (addr.val + size.val) rest) :
    (consolidate a size x passed p rest).extents = (passed.map Block.extent).reverse ++
      joinRight (p.addr.val, addr.val + size.val) (rest.map Block.extent) := by
  have hL := R.len_lt
  have hpin := h.block_inside (b := p) (by rw [hl]; simp)
  have hpsize : (add p.size size).1.val = p.size.val + size.val := by
    rw [add_val le_rfl, Nat.mod_eq_of_lt (by omega)]
  cases rest with
  | nil =>
    simp only [consolidate, Allocator.extents, List.map_append, List.map_reverse, List.map_cons,
      List.map_nil, joinRight, Block.extent, hpsize]
    rw [← hp, Nat.add_assoc]
  | cons b rest =>
    have hbin := h.block_inside (b := b) (by rw [hl]; simp)
    rw [consolidate, List.map_cons]
    by_cases hc : addr.val + size.val = b.addr.val
    · rw [joinRight_touch hc, show x = .eq from hx.trans (compare_eq_iff_eq.2 hc)]
      have hsum : (add (add p.size size).1 b.size).1.val = p.size.val + size.val + b.size.val := by
        rw [add_val le_rfl, hpsize, Nat.mod_eq_of_lt (by omega)]
      simp only [Allocator.extents, List.map_append, List.map_reverse, List.map_cons,
        Block.extent, hsum, Ordering.isEq, if_true]
      rw [← hc, ← hp, Nat.add_assoc, Nat.add_assoc, Nat.add_assoc]
    · rw [joinRight_gap hc, if_neg (by
        rw [show x = _ from hx, Ordering.isEq_iff_eq_eq, compare_eq_iff_eq]
        exact hc)]
      simp only [Allocator.extents, List.map_append, List.map_reverse, List.map_cons,
        Block.extent, hpsize]
      rw [← hp, Nat.add_assoc]

theorem insertBlock_extents (malloc : Bool) (h : Sound R a) (hl : a.list = passed.reverse ++ rest)
    (hlo : R.lo ≤ addr.val) (hx : Behind x (addr.val + size.val) rest) :
    (insertBlock malloc a addr size x passed rest = (.eOutOfMemory, a) ∧ malloc = false) ∨
      ∃ a', insertBlock malloc a addr size x passed rest = (.noError, a') ∧
        a'.extents = (passed.map Block.extent).reverse ++
          joinRight (addr.val, addr.val + size.val) (rest.map Block.extent) := by
  have hL := R.len_lt
  cases rest with
  | nil =>
    cases malloc with
    | false => exact .inl ⟨rfl, rfl⟩
    | true =>
      refine .inr ⟨_, rfl, ?_⟩
      simp only [Allocator.extents, List.map_append, List.map_reverse, List.map_cons,
        List.map_nil, joinRight, Block.extent]
  | cons b rest =>
    have hbin := h.block_inside (b := b) (by rw [hl]; simp)
    rw [insertBlock, List.map_cons]
    by_cases hc : addr.val + size.val = b.addr.val
    · rw [joinRight_touch hc, show x = .eq from hx.trans (compare_eq_iff_eq.2 hc)]
      refine .inr ⟨_, rfl, ?_⟩
      have hsum : (add b.size size).1.val = size.val + b.size.val := by
        rw [add_val le_rfl, Nat.mod_eq_of_lt (by omega), Nat.add_comm]
      simp only [Allocator.extents, List.map_append, List.map_reverse, List.map_cons,
        Block.extent, hsum]
      rw [← hc, Nat.add_assoc]
    · have hne : x.isEq = false := by
        rw [← Bool.not_eq_true, show x = _ from hx, Ordering.isEq_iff_eq_eq, compare_eq_iff_eq]
        exact hc
      rw [joinRight_gap hc, hne]
      cases malloc with
      | false => exact .inl ⟨rfl, rfl⟩
      | true =>
        refine .inr ⟨_, rfl, ?_⟩
        simp only [Allocator.extents, List.map_append, List.map_reverse, List.map_cons,
          Block.extent]

theorem Spot.behindCmp (h : Spot a addr passed rest)
    (hend : addr.val + size.val < 2 ^ (32 * acells)) :
    Behind (behindCmp addr size rest) (addr.val + size.val) rest := by
  cases rest with
  | nil => exact rfl
  | cons b rest =>
    rw [Behind, Alloc.behindCmp, addcmp_eq a.scells_le, Option.map_none, Option.getD_none,
      Option.map_some, Option.getD_some, Nat.add_zero, Nat.mod_eq_of_lt hend,
      Nat.mod_eq_of_lt b.addr.val_lt]

theorem Sound.frontCmp_cons (h : Sound R a) (hp : p ∈ a.list) :
    frontCmp addr (p :: before) = compare (p.addr.val + p.size.val) addr.val := by
  have hR := R.hi_lt
  have hpin := h.block_inside hp
  rw [frontCmp, addcmp_eq a.scells_le, Option.map_none, Option.getD_none, Option.map_some,
    Option.getD_some, Nat.add_zero, Nat.mod_eq_of_lt (by omega), Nat.mod_eq_of_lt addr.val_lt]

theorem Sound.disjoint_block (h : Sound R a) (hsize : 0 < size.val) (hb : b ∈ a.list)
    (hd : Disjoint (Set.Ico addr.val (addr.val + size.val)) a.free) :
    addr.val + size.val ≤ b.addr.val ∨ b.addr.val + b.size.val ≤ addr.val :=
  (h.separated.disjoint_iff (Nat.lt_add_of_pos_right hsize)).1 hd _ (List.mem_map_of_mem hb)

/-- A block behind the address that starts before the end of the freed memory overlaps it. -/
theorem Behind.overlaps (hx : Behind .gt (addr.val + size.val) rest) (h : Sound R a)
    (hsp : Spot a addr passed rest) (hsize : 0 < size.val) :
    ¬ Disjoint (Set.Ico addr.val (addr.val + size.val)) a.free := by
  intro hd
  cases rest with
  | nil => exact Ordering.noConfusion hx
  | cons b rest =>
    have hb : b ∈ a.list := by rw [hsp.list_eq]; simp
    have hab := hsp.above b List.mem_cons_self
    have hpos := h.size_pos hb
    have hc := compare_gt_iff_gt.1 hx.symm
    have := h.disjoint_block hsize hb hd
    omega

theorem Behind.clear (hx : Behind x stop rest) (hgt : x ≠ .gt)
    (hs : Separated (rest.map Block.extent)) : ∀ j ∈ rest.map Block.extent, stop ≤ j.1 := by
  intro j hj
  cases rest with
  | nil => cases hj
  | cons b rest =>
    have hle : stop ≤ b.addr.val :=
      not_lt.1 fun hc => hgt (Eq.trans hx (compare_gt_iff_gt.2 hc))
    obtain rfl | hj := List.mem_cons.1 hj
    · exact hle
    · obtain ⟨hpos, hbj, -⟩ := Separated.cons_iff.1 hs
      have := hbj j hj
      simp only [Block.extent] at this hpos
      omega

/-- With both neighbours clear the memory is not free. -/
theorem Spot.disjoint (hsp : Spot a addr passed rest) (h : Sound R a) (hsize : 0 < size.val)
    (hleft : ∀ j ∈ passed.map Block.extent, j.2 ≤ addr.val)
    (hright : ∀ j ∈ rest.map Block.extent, addr.val + size.val ≤ j.1) :
    Disjoint (Set.Ico addr.val (addr.val + size.val)) a.free := by
  refine (h.separated.disjoint_iff (Nat.lt_add_of_pos_right hsize)).2 fun j hj => ?_
  rw [hsp.extents] at hj
  obtain hj | hj := List.mem_append.1 hj
  · exact .inr (hleft j (List.mem_reverse.1 hj))
  · exact .inl (hright j hj)

theorem Spot.separated (hsp : Spot a addr passed rest) (h : Sound R a) :
    Separated ((passed.map Block.extent).reverse ++ rest.map Block.extent) :=
  hsp.extents ▸ h.separated

/-- The blocks below the last one end before it. -/
theorem Spot.ends_before (hsp : Spot a addr (p :: before) rest) (h : Sound R a) :
    ∀ j ∈ before.map Block.extent, j.2 < p.addr.val := by
  intro j hj
  have hs := hsp.separated h
  rw [List.map_cons, List.reverse_cons, List.append_assoc] at hs
  obtain ⟨-, -, hlt⟩ := Separated.append_iff.1 hs
  exact hlt j (List.mem_reverse.2 hj) p.extent (List.mem_append_left _ List.mem_cons_self)

theorem insertBlock_released (malloc : Bool) (h : Sound R a) (hsp : Spot a addr passed rest)
    (hsize : 0 < size.val) (hlo : R.lo ≤ addr.val) (hhi : addr.val + size.val ≤ R.hi)
    (hx : Behind x (addr.val + size.val) rest) (hgt : x ≠ .gt)
    (hleft : ∀ j ∈ passed.map Block.extent, j.2 < addr.val) :
    Released R malloc a (addr.val, addr.val + size.val)
      (insertBlock malloc a addr size x passed rest) := by
  have hs := hsp.separated h
  have hright := hx.clear hgt (Separated.append_iff.1 hs).2.1
  have hd := hsp.disjoint h hsize (fun j hj => (hleft j hj).le) hright
  obtain ⟨hr, hm⟩ | ⟨a', hr, hext⟩ := insertBlock_extents malloc h hsp.list_eq hlo hx
  · rw [hr]
    exact .memory hd hm
  · rw [hr]
    obtain ⟨hs', hf⟩ := joined (i := (addr.val, addr.val + size.val)) hs
      (hsp.extents ▸ h.inside) (Nat.lt_add_of_pos_right hsize) hlo hhi
      (fun j hj => hleft j (List.mem_reverse.1 hj)) hright hext
    exact .done hd hs' (by rw [hf, Allocator.free, hsp.extents])

theorem consolidate_released (malloc : Bool) (h : Sound R a)
    (hsp : Spot a addr (p :: before) rest) (hsize : 0 < size.val)
    (hhi : addr.val + size.val ≤ R.hi) (hx : Behind x (addr.val + size.val) rest)
    (hgt : x ≠ .gt) (hp : p.addr.val + p.size.val = addr.val) :
    Released R malloc a (addr.val, addr.val + size.val)
      (.noError, consolidate a size x before p rest) := by
  have hs := hsp.separated h
  have hin := h.inside
  have he := hsp.extents
  have hright := hx.clear hgt (Separated.append_iff.1 hs).2.1
  have hpa := hsp.below p List.mem_cons_self
  have hleft : ∀ j ∈ (p :: before).map Block.extent, j.2 ≤ addr.val :=
    List.forall_mem_cons.2 ⟨hp.le, fun j hj => ((hsp.ends_before h j hj).trans hpa).le⟩
  have hl : a.list = before.reverse ++ p :: rest := by rw [hsp.list_eq]; simp
  have hext := consolidate_extents h hl hp hhi hx
  rw [he] at hin
  rw [List.map_cons, List.reverse_cons, List.append_assoc, List.singleton_append] at hs hin he
  have hpend : p.extent.2 = addr.val := hp
  obtain ⟨hs', hf⟩ := joined_left hs hin (hpend.trans_lt (Nat.lt_add_of_pos_right hsize)) hhi
    hright hext
  refine .done (hsp.disjoint h hsize hleft hright) hs' ?_
  rw [hf, Allocator.free, he, hpend]

/-- A release is accepted exactly when none of its addresses is free, and frees exactly them. -/
theorem freeBlock_released (malloc : Bool) (h : Sound R a) (addr : Cells acells)
    (size : Cells scells) (hsize : 0 < size.val) (hlo : R.lo ≤ addr.val)
    (hhi : addr.val + size.val ≤ R.hi) :
    Released R malloc a (addr.val, addr.val + size.val) (freeBlock malloc a addr size) := by
  have hR := R.hi_lt
  have hsp := h.spot addr
  rw [freeBlock]
  generalize findSpot addr [] a.list = s at hsp
  obtain ⟨passed, rest⟩ := s
  have hbehind : Behind (behindCmp addr size rest) (addr.val + size.val) rest :=
    hsp.behindCmp (by omega)
  simp only
  generalize behindCmp addr size rest = x at hbehind
  by_cases hgt : x = .gt
  · subst hgt
    have hover := hbehind.overlaps h hsp hsize
    split
    · exact .free hover
    · exact .free hover
  have hx : x.isGT = false := by rwa [← Bool.not_eq_true, Ordering.isGT_iff_eq_gt]
  rw [hx]
  cases passed with
  | nil => exact insertBlock_released malloc h hsp hsize hlo hhi hbehind hgt fun j hj =>
      absurd hj List.not_mem_nil
  | cons p before =>
    have hp : p ∈ a.list := by rw [hsp.list_eq]; simp
    have hpa := hsp.below p List.mem_cons_self
    have hpos := h.size_pos hp
    rw [h.frontCmp_cons hp]
    obtain hc | hc | hc := lt_trichotomy (p.addr.val + p.size.val) addr.val
    · rw [compare_lt_iff_lt.2 hc]
      exact insertBlock_released malloc h hsp hsize hlo hhi hbehind hgt
        (List.forall_mem_cons.2 ⟨hc, fun j hj => (hsp.ends_before h j hj).trans hpa⟩)
    · rw [compare_eq_iff_eq.2 hc]
      exact consolidate_released malloc h hsp hsize hhi hbehind hgt hc
    · rw [compare_gt_iff_gt.2 hc]
      refine .free (i := (addr.val, _)) fun hd => ?_
      have := h.disjoint_block hsize hp hd
      omega

/-- The first of the blocks below the address is the last one that starts at or below it, where no
block starts at the address. -/
theorem Spot.last (hsp : Spot a addr (p :: before) rest) (h : Sound R a)
    (hrest : ∀ b ∈ rest, addr.val < b.addr.val) :
    ∀ b ∈ a.list, b.addr.val ≤ addr.val → b.addr.val ≤ p.addr.val := by
  intro b hb hle
  rw [hsp.list_eq, List.reverse_cons] at hb
  obtain hb | hb := List.mem_append.1 hb
  · obtain hb | hb := List.mem_append.1 hb
    · have hlt := hsp.ends_before h b.extent (List.mem_map_of_mem (List.mem_reverse.1 hb))
      simp only [Block.extent] at hlt
      omega
    · rw [List.mem_singleton.1 hb]
  · exact absurd (hrest b hb) (not_lt.2 hle)

theorem Sound.not_free_of_wrap (h : Sound R a) (hsize : 0 < size.val)
    (hwrap : 2 ^ (32 * acells) ≤ addr.val + size.val) :
    ¬ Set.Ico addr.val (addr.val + size.val) ⊆ a.free := by
  intro hs
  have hR := R.hi_lt
  have hsub := hs.trans h.free_subset
  rw [Set.Ico_subset_Ico_iff (Nat.lt_add_of_pos_right hsize)] at hsub
  omega

/-- With no block at the address the one below it decides. -/
theorem allocInside_noError_iff (h : Sound R a) (hsp : Spot a addr passed rest)
    (hrest : ∀ b ∈ rest, addr.val < b.addr.val)
    (hwrap : 2 ^ (32 * acells) ≤ addr.val + size.val) :
    (allocInside true a addr size passed rest).1 = .noError ↔ ∃ p ∈ a.list,
      p.addr.val < addr.val ∧ (∀ b ∈ a.list, b.addr.val ≤ addr.val → b.addr.val ≤ p.addr.val) ∧
      addr.val + size.val - 2 ^ (32 * acells) ≤ p.addr.val + p.size.val := by
  cases passed with
  | nil =>
    refine iff_of_false (Retcode.noConfusion ·) ?_
    rintro ⟨p, hp, hlt, -⟩
    rw [hsp.list_eq] at hp
    exact absurd (hrest p hp) (Nat.lt_asymm hlt)
  | cons p before =>
    have hp : p ∈ a.list := by rw [hsp.list_eq]; simp
    have hpa := hsp.below p List.mem_cons_self
    have hlast := hsp.last h hrest
    rw [allocInside_wraps h hp hwrap]
    constructor
    · exact fun hle => ⟨p, hp, hpa, hlast, hle⟩
    · rintro ⟨q, hq, hlt, hqlast, hle⟩
      have h1 := hlast q hq hlt.le
      have h2 := hqlast p hp hpa.le
      have hqp : q.extent = p.extent := h.separated.eq_of_touch (List.mem_map_of_mem hq)
        (List.mem_map_of_mem hp) (by simp only [Block.extent]; omega)
        (by simp only [Block.extent]; omega)
      simp only [Block.extent, Prod.mk.injEq] at hqp
      omega

/-- With memory for another block, a claim is granted exactly when its addresses are free, or when
no block starts at its address and its end wraps around to an address not above the end of the last
block that starts below it: the carry out of the last cell is not looked at. -/
theorem allocFixed_noError_iff (h : Sound R a) (hsize : 0 < size.val) :
    (allocFixed true a addr size).1 = .noError ↔
      Set.Ico addr.val (addr.val + size.val) ⊆ a.free ∨
      2 ^ (32 * acells) ≤ addr.val + size.val ∧ ∃ p ∈ a.list, p.addr.val < addr.val ∧
        (∀ b ∈ a.list, b.addr.val ≤ addr.val → b.addr.val ≤ p.addr.val) ∧
        addr.val + size.val - 2 ^ (32 * acells) ≤ p.addr.val + p.size.val := by
  by_cases hend : addr.val + size.val < 2 ^ (32 * acells)
  · rw [(allocFixed_claimed true h hsize hend).noError_iff]
    exact ⟨.inl, fun h => h.resolve_right fun hw => absurd hend (not_lt.2 hw.1)⟩
  have hwrap := not_lt.1 hend
  have hR := R.hi_lt
  rw [or_iff_right (h.not_free_of_wrap hsize hwrap), and_iff_right hwrap]
  have hsp := h.spot addr
  rw [allocFixed, zero_eq_false.2 hsize]
  generalize findSpot addr [] a.list = s at hsp
  obtain ⟨passed, rest⟩ := s
  cases rest with
  | nil => exact allocInside_noError_iff h hsp (fun _ hb => absurd hb List.not_mem_nil) hwrap
  | cons b rest =>
    have hb := hsp.above b List.mem_cons_self
    have hbl : b ∈ a.list := by rw [hsp.list_eq]; simp
    simp only [Bool.false_and, Bool.false_eq_true, if_false, cmp_eq]
    by_cases hc : addr.val = b.addr.val
    · rw [compare_eq_iff_eq.2 hc]
      have hin := h.block_inside hbl
      refine iff_of_false ?_ ?_
      · show (allocAtStart a size passed b rest).1 ≠ _
        rw [allocAtStart, h.zero_size hbl, cmp_eq, compare_lt_iff_lt.2 (by omega)]
        exact (Retcode.noConfusion ·)
      · rintro ⟨p, hp, hlt, hlast, -⟩
        have := hlast b hbl hc.ge
        omega
    · have hlt : addr.val < b.addr.val := lt_of_le_of_ne hb hc
      rw [compare_lt_iff_lt.2 hlt]
      exact allocInside_noError_iff h hsp (h.behind hsp hlt) hwrap

theorem allocFixed_noError_iff_wrap :
    let a : Allocator 1 1 := ⟨[⟨⟨[0x1000], rfl⟩, ⟨[0x1000], rfl⟩⟩], le_rfl⟩
    Sound ⟨0x1000, 0x2000, by decide, by decide⟩ a ∧
      ((allocFixed true a ⟨[0x1800], rfl⟩ ⟨[0xfffff000], rfl⟩).1 = .noError ↔
        Set.Ico 0x1800 0x100000800 ⊆ a.free ∨
        2 ^ 32 ≤ 0x100000800 ∧ ∃ p ∈ a.list, p.addr.val < 0x1800 ∧
          (∀ b ∈ a.list, b.addr.val ≤ 0x1800 → b.addr.val ≤ p.addr.val) ∧
          0x800 ≤ p.addr.val + p.size.val) := by
  intro a
  have hs : Sound ⟨0x1000, 0x2000, by decide, by decide⟩ a := by
    refine ⟨.singleton (by decide), ?_⟩
    intro i hi
    rw [List.mem_singleton.1 hi]
    exact ⟨by decide, by decide⟩
  exact ⟨hs, allocFixed_noError_iff hs (by decide)⟩

end Pegasos2.Alloc
