import Pegasos2.AllocLedger

namespace Pegasos2.MemoryNode
open Alloc Intervals
set_option autoImplicit true

def propEncodeInt (val : BitVec 32) : List UInt8 :=
  [.ofNat (val.toNat / 2 ^ 24), .ofNat (val.toNat / 2 ^ 16), .ofNat (val.toNat / 2 ^ 8),
    .ofNat val.toNat]

/-- The number and the bytes behind it, or nothing for `E_PROPERTY_ERROR`. -/
def propDecodeInt : List UInt8 → Option (BitVec 32 × List UInt8)
  | b3 :: b2 :: b1 :: b0 :: rest =>
    let v := b3.toNat
    let v := v * 2 ^ 8 + b2.toNat
    let v := v * 2 ^ 8 + b1.toNat
    let v := v * 2 ^ 8 + b0.toNat
    some (.ofNat 32 v, rest)
  | _ => none

theorem propDecodeInt_encode (val : BitVec 32) (rest : List UInt8) :
    propDecodeInt (propEncodeInt val ++ rest) = some (val, rest) := by
  have hlt := val.isLt
  simp only [propEncodeInt, List.cons_append, List.nil_append, propDecodeInt, UInt8.toNat_ofNat']
  congr 2
  refine BitVec.eq_of_toNat_eq ?_
  rw [BitVec.toNat_ofNat]
  omega

/-- An array of one cell: the root node's `#address-cells` and `#size-cells` are one. -/
def cell (x : BitVec 32) : Cells 1 := ⟨[x], rfl⟩

theorem cell_head (c : Cells 1) : cell c.head = c := by
  obtain ⟨l, hl⟩ := c
  obtain ⟨x, rfl⟩ := List.length_eq_one_iff.1 hl
  rfl

theorem cell_val (x : BitVec 32) : (cell x).val = x.toNat := by
  show x.toNat + 2 ^ 32 * 0 = _
  rw [Nat.mul_zero, Nat.add_zero]

theorem head_toNat (c : Cells 1) : c.head.toNat = c.val := by
  rw [← cell_val, cell_head]

/-- The loop of `make_available` over the blocks that `alloc_info` hands out, from the one behind
`b` on. -/
def encodeFrom (a : Allocator 1 1) : Nat → Option Nat → List UInt8
  | 0, _ => []
  | n + 1, b =>
    match allocInfo a b with
    | none => []
    | some (b, addr, size) =>
      propEncodeInt addr.head ++ propEncodeInt size.head ++ encodeFrom a n (some b)

/-- The blocks of a list, each as its address and its size. -/
def encodeBlocks (l : List (Block 1 1)) : List UInt8 :=
  l.flatMap fun b => propEncodeInt b.addr.head ++ propEncodeInt b.size.head

/-- A client's view of the property: pairs of an address and a size, up to the first that is not
whole. -/
def decodeReg (fuel : Nat) (prop : List UInt8) : List (Nat × Nat) :=
  match fuel with
  | 0 => []
  | fuel + 1 =>
    match propDecodeInt prop with
    | none => []
    | some (addr, prop) =>
      match propDecodeInt prop with
      | none => []
      | some (size, prop) => (addr.toNat, addr.toNat + size.toNat) :: decodeReg fuel prop

theorem decodeReg_encode (l : List (Block 1 1)) (hf : l.length ≤ fuel) :
    decodeReg fuel (encodeBlocks l) = l.map Block.extent := by
  induction l generalizing fuel with
  | nil => cases fuel <;> rfl
  | cons b l ih =>
    obtain ⟨fuel, rfl⟩ := Nat.exists_eq_add_of_le' (Nat.lt_of_lt_of_le (Nat.succ_pos _) hf)
    rw [encodeBlocks, List.flatMap_cons, List.append_assoc, decodeReg, propDecodeInt_encode]
    simp only [propDecodeInt_encode]
    rw [show List.flatMap _ l = encodeBlocks l from rfl, ih (Nat.le_of_succ_le_succ hf),
      List.map_cons, Block.extent, head_toNat, head_toNat]

theorem encodeBlocks_length (l : List (Block 1 1)) : (encodeBlocks l).length = 8 * l.length := by
  induction l with
  | nil => rfl
  | cons b l ih =>
    rw [encodeBlocks, List.flatMap_cons, List.length_append, ← encodeBlocks, ih, List.length_cons]
    simp only [propEncodeInt, List.length_append, List.length_cons, List.length_nil]
    omega

theorem encodeFrom_eq (a : Allocator 1 1) (h : (a.list.drop i).length ≤ n)
    (hb : b.elim 0 (· + 1) = i) : encodeFrom a n b = encodeBlocks (a.list.drop i) := by
  induction n generalizing i b with
  | zero =>
    rw [List.length_eq_zero_iff.1 (Nat.le_zero.1 h)]
    rfl
  | succ n ih =>
    have hnext : allocInfo a b = a.list[i]?.map fun block => (i, block.addr, block.size) := by
      rw [← hb]
      cases b <;> rfl
    rw [encodeFrom, hnext]
    cases hi : a.list[i]? with
    | none =>
      rw [List.drop_eq_nil_of_le (List.getElem?_eq_none_iff.1 hi)]
      rfl
    | some block =>
      obtain ⟨hlt, rfl⟩ := List.getElem?_eq_some_iff.1 hi
      rw [List.drop_eq_getElem_cons hlt, encodeBlocks, List.flatMap_cons]
      rw [List.drop_eq_getElem_cons hlt, List.length_cons] at h
      exact congrArg (_ ++ ·) (ih (Nat.le_of_succ_le_succ h) rfl)

theorem encodeFrom_all (a : Allocator 1 1) :
    encodeFrom a (a.list.length + 1) none = encodeBlocks a.list := by
  have h := encodeFrom_eq a (i := 0) (n := a.list.length + 1) (b := none) (by
    rw [List.drop_zero]
    exact Nat.le_succ _) rfl
  rwa [List.drop_zero] at h

structure Node where
  allocator : Allocator 1 1
  available : List UInt8

/-- The check `IFCKSP` of the depth of the stack. -/
def ifcksp (stackSize min max : Nat) (stack : List (BitVec 32)) : Option Alloc.Retcode :=
  if 0 < min ∧ stack.length < min then some .eStackUnderflow
  else if 0 < max ∧ stack.length + max ≥ stackSize then some .eStackOverflow
  else none

/-- `room` says whether there is memory for the property. -/
def makeAvailable (room : Bool) (m : Node) : Alloc.Retcode × Node :=
  if room then
    (.noError, { m with available := encodeFrom m.allocator (m.allocator.list.length + 1) none })
  else (.eOutOfMemory, m)

theorem makeAvailable_eq (m : Node) :
    makeAvailable true m = (.noError, { m with available := encodeBlocks m.allocator.list }) := by
  rw [makeAvailable, if_pos rfl, encodeFrom_all]

/-- The end of `f_memory_claim`, from the code of the allocator, the allocator, and the address
cells. -/
def finishClaim (room : Bool) (m : Node) (stack : List (BitVec 32))
    (r : Alloc.Retcode × Allocator 1 1 × Cells 1) : Alloc.Retcode × List (BitVec 32) × Node :=
  let base := if r.1 = .noError then r.2.2.head else 0
  let r2 := makeAvailable room { m with allocator := r.2.1 }
  (if r.1 ≠ .noError then r.1 else r2.1, base :: stack, r2.2)

/-- The stack has its top first. -/
def fMemoryClaim (stackSize : Nat) (malloc room : Bool) (m : Node) (stack : List (BitVec 32)) :
    Alloc.Retcode × List (BitVec 32) × Node :=
  match ifcksp stackSize 2 1 stack, stack with
  | none, algn :: sz :: stack =>
    if algn = 0 then
      match ifcksp stackSize 1 1 stack, stack with
      | none, addr :: stack =>
        let r := allocFixed malloc m.allocator (cell addr) (cell sz)
        finishClaim room m stack (r.1, r.2, cell addr)
      | some e, stack => (e, stack, m)
      | none, [] => (.eStackUnderflow, [], m)
    else
      -- `alloc_aligned` sets the address before it reads it
      let r := allocAligned malloc m.allocator (cell algn) (cell sz) (cell 0)
      finishClaim room m stack (r.1, r.2.1, r.2.2.1)
  | some e, stack => (e, stack, m)
  | none, stack => (.eStackUnderflow, stack, m)

def fMemoryRelease (stackSize : Nat) (malloc room : Bool) (m : Node) (stack : List (BitVec 32)) :
    Alloc.Retcode × List (BitVec 32) × Node :=
  match ifcksp stackSize 2 0 stack, stack with
  | none, sz :: addr :: stack =>
    let r := freeBlock malloc m.allocator (cell addr) (cell sz)
    let r2 := makeAvailable room { m with allocator := r.2 }
    (if r.1 ≠ .noError then r.1 else r2.1, stack, r2.2)
  | some e, stack => (e, stack, m)
  | none, stack => (.eStackUnderflow, stack, m)

/-- The part of `install_memory` that sets up the free list and the property. -/
def installMemory (malloc room : Bool) (machineMemory machineMemorySize : BitVec 32) :
    Except Alloc.Retcode Node := do
  let a ← allocInit malloc 1 1
  let r := freeBlock malloc a (cell machineMemory) (cell machineMemorySize)
  if r.1 ≠ .noError then throw r.1
  let r2 := makeAvailable room { allocator := r.2, available := [] }
  if r2.1 ≠ .noError then throw r2.1
  return r2.2

/-- The nodes that calls lead to while there is memory for the property, with the stretches that
were claimed and not yet released. Calls with any stack may be refused; those that are granted have
a size, an end below 2^32 where the address is given, a power of two for an alignment, and release
a stretch as it was claimed. -/
inductive Reached (stackSize : Nat) (R : Region 1 1) : Node → List (Nat × Nat) → Prop
  | install (malloc : Bool) (base size : BitVec 32) (hsize : 0 < size.toNat)
      (hlo : R.lo = base.toNat) (hhi : R.hi = base.toNat + size.toNat)
      (he : installMemory malloc true base size = .ok m) : Reached stackSize R m []
  | claimed (h : Reached stackSize R m L) (malloc : Bool) (algn sz : BitVec 32)
      (hsz : 0 < sz.toNat) (halgn : algn ≠ 0 → ∃ k, algn.toNat = 2 ^ k)
      (haddr : algn = 0 → ∀ addr ∈ stack.head?, addr.toNat + sz.toNat < 2 ^ 32)
      (he : fMemoryClaim stackSize malloc true m (algn :: sz :: stack) =
        (.noError, base :: stack', m')) :
      Reached stackSize R m' ((base.toNat, base.toNat + sz.toNat) :: L)
  | refused (h : Reached stackSize R m L) (malloc : Bool) (stack : List (BitVec 32))
      (he : fMemoryClaim stackSize malloc true m stack = (ret, stack', m'))
      (hret : ret ≠ .noError) : Reached stackSize R m' L
  | released (h : Reached stackSize R m L) (malloc : Bool) (sz addr : BitVec 32)
      (hi : (addr.toNat, addr.toNat + sz.toNat) ∈ L)
      (he : fMemoryRelease stackSize malloc true m (sz :: addr :: stack) =
        (.noError, stack', m')) :
      Reached stackSize R m' (L.erase (addr.toNat, addr.toNat + sz.toNat))
  | kept (h : Reached stackSize R m L) (malloc : Bool) (stack : List (BitVec 32))
      (he : fMemoryRelease stackSize malloc true m stack = (ret, stack', m'))
      (hret : ret ≠ .noError) : Reached stackSize R m' L

/-- The property tells what is free. -/
def Fresh (m : Node) : Prop := m.available = encodeBlocks m.allocator.list

theorem finishClaim_ret (m : Node) (stack : List (BitVec 32))
    (r : Alloc.Retcode × Allocator 1 1 × Cells 1) : (finishClaim true m stack r).1 = r.1 := by
  rw [finishClaim]
  split
  · rfl
  · rename_i h
    exact (not_not.1 h).symm

theorem ifcksp_ne (h : ifcksp stackSize mn mx stack = some e) : e ≠ .noError := by
  rw [ifcksp] at h
  split at h
  · rintro rfl
    cases h
  · split at h
    · rintro rfl
      cases h
    · cases h

/-- What a claim does to the allocator is what one of the allocator's calls does. -/
theorem fMemoryClaim_cases (stackSize : Nat) (malloc : Bool) (m : Node)
    (stack : List (BitVec 32)) :
    (∃ e stack', e ≠ .noError ∧ fMemoryClaim stackSize malloc true m stack = (e, stack', m)) ∨
    (∃ sz addr rest, stack = 0 :: sz :: addr :: rest ∧
      fMemoryClaim stackSize malloc true m stack = finishClaim true m rest
        ((allocFixed malloc m.allocator (cell addr) (cell sz)).1,
          (allocFixed malloc m.allocator (cell addr) (cell sz)).2, cell addr)) ∨
    (∃ algn sz rest, algn ≠ 0 ∧ stack = algn :: sz :: rest ∧
      fMemoryClaim stackSize malloc true m stack = finishClaim true m rest
        ((allocAligned malloc m.allocator (cell algn) (cell sz) (cell 0)).1,
          (allocAligned malloc m.allocator (cell algn) (cell sz) (cell 0)).2.1,
          (allocAligned malloc m.allocator (cell algn) (cell sz) (cell 0)).2.2.1)) := by
  cases hc : ifcksp stackSize 2 1 stack with
  | some e =>
    refine .inl ⟨e, stack, ifcksp_ne hc, ?_⟩
    simp only [fMemoryClaim, hc]
  | none =>
    match stack, hc with
    | [], hc =>
      exact .inl ⟨.eStackUnderflow, [], (absurd · (by decide)), by simp only [fMemoryClaim, hc]⟩
    | [x], hc =>
      exact .inl ⟨.eStackUnderflow, [x], (absurd · (by decide)), by simp only [fMemoryClaim, hc]⟩
    | algn :: sz :: rest, hc =>
      by_cases ha : algn = 0
      · subst ha
        cases hc' : ifcksp stackSize 1 1 rest with
        | some e =>
          refine .inl ⟨e, rest, ifcksp_ne hc', ?_⟩
          simp only [fMemoryClaim, hc, hc', if_true]
        | none =>
          cases rest with
          | nil =>
            exact .inl ⟨.eStackUnderflow, [], (absurd · (by decide)),
              by simp only [fMemoryClaim, hc, hc', if_true]⟩
          | cons addr rest =>
            exact .inr (.inl ⟨sz, addr, rest, rfl, by simp only [fMemoryClaim, hc, hc', if_true]⟩)
      · exact .inr (.inr ⟨algn, sz, rest, ha, rfl, by simp only [fMemoryClaim, hc, if_neg ha]⟩)

theorem allocAligned_keeps (malloc : Bool) (a : Allocator 1 1) (align size addr : Cells 1)
    (h : (allocAligned malloc a align size addr).1 ≠ .noError) :
    (allocAligned malloc a align size addr).2.1 = a := constrainedLoop_keeps _ _ _ _ _ _ _ _ _ h

theorem fMemoryRelease_cases (stackSize : Nat) (malloc : Bool) (m : Node)
    (stack : List (BitVec 32)) :
    (∃ e stack', e ≠ .noError ∧ fMemoryRelease stackSize malloc true m stack = (e, stack', m)) ∨
    ∃ sz addr rest, stack = sz :: addr :: rest ∧
      fMemoryRelease stackSize malloc true m stack =
        ((freeBlock malloc m.allocator (cell addr) (cell sz)).1, rest,
          (makeAvailable true { m with
            allocator := (freeBlock malloc m.allocator (cell addr) (cell sz)).2 }).2) := by
  cases hc : ifcksp stackSize 2 0 stack with
  | some e =>
    refine .inl ⟨e, stack, ifcksp_ne hc, ?_⟩
    simp only [fMemoryRelease, hc]
  | none =>
    match stack, hc with
    | [], hc =>
      exact .inl ⟨.eStackUnderflow, [], (absurd · (by decide)), by simp only [fMemoryRelease, hc]⟩
    | [x], hc =>
      exact .inl ⟨.eStackUnderflow, [x], (absurd · (by decide)), by simp only [fMemoryRelease, hc]⟩
    | sz :: addr :: rest, hc =>
      refine .inr ⟨sz, addr, rest, rfl, ?_⟩
      simp only [fMemoryRelease, hc]
      split
      · rfl
      · rename_i h
        rw [not_not.1 h]
        rfl

theorem power_cell (h : ∃ k, algn.toNat = 2 ^ k) : Power 1 (cell algn) := by
  obtain ⟨k, hk⟩ := h
  refine ⟨k, ?_, (cell_val algn).trans hk⟩
  have hlt := algn.isLt
  rw [hk] at hlt
  exact (Nat.pow_lt_pow_iff_right Nat.one_lt_two).1 hlt |>.le

theorem finishClaim_granted {r : Alloc.Retcode × Allocator 1 1 × Cells 1}
    (h : finishClaim true m stack r = (.noError, base :: stack', m')) :
    r = (.noError, m'.allocator, cell base) ∧ Fresh m' := by
  have hret := finishClaim_ret m stack r
  rw [h] at hret
  obtain ⟨ret, a, addr⟩ := r
  obtain rfl : ret = .noError := hret.symm
  simp only [finishClaim, if_true, Prod.mk.injEq, List.cons.injEq] at h
  obtain ⟨-, ⟨rfl, -⟩, rfl⟩ := h
  exact ⟨by rw [cell_head]; rfl, encodeFrom_all _⟩

theorem finishClaim_refused {r : Alloc.Retcode × Allocator 1 1 × Cells 1} (hf : Fresh m)
    (hk : r.1 ≠ .noError → r.2.1 = m.allocator)
    (h : finishClaim true m stack r = (ret, stack', m')) (hret : ret ≠ .noError) : m' = m := by
  have hr := finishClaim_ret m stack r
  rw [h] at hr
  have hk := hk (hr ▸ hret)
  have hm : m' = { allocator := r.2.1, available := encodeBlocks r.2.1.list } := by
    have hnode := congrArg (fun x => x.2.2) h
    rw [finishClaim, makeAvailable_eq] at hnode
    exact hnode.symm
  rw [hm, hk, ← hf]

theorem installMemory_ok (h : installMemory malloc true base size = .ok m)
    (hsize : 0 < size.toNat) (hlo : R.lo = base.toNat) (hhi : R.hi = base.toNat + size.toNat) :
    Fresh m ∧ Ledger R m.allocator [] := by
  cases malloc with
  | false => cases h
  | true =>
    obtain rfl : m = ⟨⟨[⟨cell base, cell size⟩], le_rfl⟩, encodeBlocks [⟨cell base, cell size⟩]⟩ :=
      (Except.ok.inj h).symm
    have hext : ∀ a : Allocator 1 1, a.list = [⟨cell base, cell size⟩] →
        a.extents = [(R.lo, R.hi)] := by
      intro a ha
      rw [Allocator.extents, ha, List.map_cons, List.map_nil, Block.extent, cell_val, cell_val, hlo,
        hhi]
    refine ⟨rfl, .start ⟨?_, ?_⟩ ?_⟩
    · rw [hext _ rfl]
      exact .singleton (by omega)
    · rw [hext _ rfl]
      intro i hi
      rw [List.mem_singleton.1 hi]
      exact ⟨le_rfl, le_rfl⟩
    · rw [Allocator.free, hext _ rfl, cover_cons, cover_nil, Set.union_empty]

theorem claim_granted (hl : Ledger R m.allocator L) (hsz : 0 < sz.toNat)
    (halgn : algn ≠ 0 → ∃ k, algn.toNat = 2 ^ k)
    (haddr : algn = 0 → ∀ addr ∈ stack.head?, addr.toNat + sz.toNat < 2 ^ 32)
    (he : fMemoryClaim stackSize malloc true m (algn :: sz :: stack) =
      (.noError, base :: stack', m')) :
    Fresh m' ∧ Ledger R m'.allocator ((base.toNat, base.toNat + sz.toNat) :: L) := by
  have hsz' : 0 < (cell sz).val := by rwa [cell_val]
  obtain ⟨e, st, hne, hr⟩ | ⟨sz', addr, rest, hst, hr⟩ | ⟨al, sz', rest, hal, hst, hr⟩ :=
    fMemoryClaim_cases stackSize malloc m (algn :: sz :: stack)
  · rw [hr] at he
    cases he
    exact absurd rfl hne
  · obtain ⟨rfl, rfl, rfl⟩ : algn = 0 ∧ sz = sz' ∧ stack = addr :: rest := by
      simpa using hst
    have hend : (cell addr).val + (cell sz).val < 2 ^ (32 * 1) := by
      rw [cell_val, cell_val]
      exact haddr rfl addr rfl
    have hc := allocFixed_claimed malloc hl.sound hsz' hend
    obtain ⟨hg, hf⟩ := finishClaim_granted (hr.symm.trans he)
    obtain ⟨h1, h2, h3⟩ : _ ∧ _ ∧ _ := by simpa using hg
    have hx : allocFixed malloc m.allocator (cell addr) (cell sz) = (.noError, m'.allocator) :=
      Prod.ext h1 h2
    rw [hx, h3, cell_val, cell_val] at hc
    exact ⟨hf, hl.claim (Nat.lt_add_of_pos_right hsz) hc⟩
  · obtain ⟨rfl, rfl, rfl⟩ : algn = al ∧ sz = sz' ∧ stack = rest := by
      simpa using hst
    have hp := allocConstrained_placed malloc none none (some (cell algn)) none hl.sound hsz'
      (fun m hm => by cases hm)
      (fun l hl => by cases hl; exact power_cell (halgn hal)) (cell 0)
    obtain ⟨hg, hf⟩ := finishClaim_granted (hr.symm.trans he)
    have hl' := hl.place hsz' (hg ▸ hp)
    rw [if_pos rfl, cell_val, cell_val] at hl'
    exact ⟨hf, hl'⟩

/-- A claim that is refused leaves the node as it was. -/
theorem Fresh.claim_refused (hf : Fresh m)
    (he : fMemoryClaim stackSize malloc true m stack = (ret, stack', m')) (hret : ret ≠ .noError) :
    m' = m := by
  obtain ⟨e, st, hne, hr⟩ | ⟨sz, addr, rest, -, hr⟩ | ⟨al, sz, rest, -, -, hr⟩ :=
    fMemoryClaim_cases stackSize malloc m stack
  · rw [hr] at he
    cases he
    rfl
  · exact finishClaim_refused hf (fun h => allocFixed_keeps _ _ _ _ h) (hr.symm.trans he) hret
  · exact finishClaim_refused hf (allocAligned_keeps _ _ _ _ _) (hr.symm.trans he) hret

theorem release_granted (hl : Ledger R m.allocator L)
    (hi : (addr.toNat, addr.toNat + sz.toNat) ∈ L)
    (he : fMemoryRelease stackSize malloc true m (sz :: addr :: stack) = (.noError, stack', m')) :
    Fresh m' ∧ Ledger R m'.allocator (L.erase (addr.toNat, addr.toNat + sz.toNat)) := by
  obtain ⟨e, st, hne, hr⟩ | ⟨sz', addr', rest, hst, hr⟩ :=
    fMemoryRelease_cases stackSize malloc m (sz :: addr :: stack)
  · rw [hr] at he
    cases he
    exact absurd rfl hne
  · obtain ⟨rfl, rfl, rfl⟩ : sz = sz' ∧ addr = addr' ∧ stack = rest := by simpa using hst
    have hin := hl.inside _ hi
    have hsz : 0 < (cell sz).val := by
      rw [cell_val]
      exact Nat.lt_add_right_iff_pos.1 (hl.nonempty _ hi)
    have hrel := freeBlock_released malloc hl.sound (cell addr) (cell sz) hsz
      (by rw [cell_val]; exact hin.1) (by rw [cell_val, cell_val]; exact hin.2)
    rw [cell_val, cell_val] at hrel
    rw [hr] at he
    simp only [Prod.mk.injEq] at he
    obtain ⟨h1, -, rfl⟩ := he
    generalize hfb : freeBlock malloc m.allocator (cell addr) (cell sz) = fb at h1 hrel
    obtain ⟨ret, a'⟩ := fb
    obtain rfl : ret = .noError := h1
    have hl' := (hl.release hi hrel).2
    rw [if_pos rfl] at hl'
    exact ⟨encodeFrom_all _, hl'⟩

theorem Fresh.release_refused (hf : Fresh m)
    (he : fMemoryRelease stackSize malloc true m stack = (ret, stack', m'))
    (hret : ret ≠ .noError) : Fresh m' ∧ m'.allocator = m.allocator := by
  obtain ⟨e, st, hne, hr⟩ | ⟨sz, addr, rest, -, hr⟩ :=
    fMemoryRelease_cases stackSize malloc m stack
  · rw [hr] at he
    cases he
    exact ⟨hf, rfl⟩
  · rw [hr] at he
    simp only [Prod.mk.injEq] at he
    obtain ⟨h1, -, rfl⟩ := he
    exact ⟨encodeFrom_all _, freeBlock_keeps malloc m.allocator (cell addr) (cell sz) (h1 ▸ hret)⟩

theorem Reached.ledger (h : Reached stackSize R m L) : Fresh m ∧ Ledger R m.allocator L := by
  induction h with
  | install malloc base size hsize hlo hhi he => exact installMemory_ok he hsize hlo hhi
  | claimed h malloc algn sz hsz halgn haddr he ih => exact claim_granted ih.2 hsz halgn haddr he
  | refused h malloc stack he hret ih =>
    rw [ih.1.claim_refused he hret]
    exact ih
  | released h malloc sz addr hi he ih => exact release_granted ih.2 hi he
  | kept h malloc stack he hret ih =>
    obtain ⟨hf, hsame⟩ := ih.1.release_refused he hret
    exact ⟨hf, hsame ▸ ih.2⟩

/-- In every state that claims and releases lead to, the `available` property lists the unclaimed
memory, in ascending stretches with gaps between them. -/
theorem available_exact (h : Reached stackSize R m L) :
    ∃ l, decodeReg (m.available.length / 8) m.available = l ∧ Separated l ∧
      cover l = Set.Ico R.lo R.hi \ cover L ∧
      L.Pairwise (fun i j => Disjoint (Set.Ico i.1 i.2) (Set.Ico j.1 j.2)) := by
  obtain ⟨hf, hl⟩ := h.ledger
  refine ⟨m.allocator.extents, ?_, hl.sound.separated, hl.free, hl.apart⟩
  rw [hf, encodeBlocks_length, Nat.mul_div_cancel_left _ (by decide)]
  exact decodeReg_encode _ le_rfl

/-- A node with 1 MiB of memory. -/
def pagesNode : Node := ⟨⟨[⟨cell 0x200000, cell 0x100000⟩], le_rfl⟩,
  encodeBlocks [⟨cell 0x200000, cell 0x100000⟩]⟩

theorem reached_pages (he : fMemoryClaim 128 true true pagesNode [0x1000, 0x2000] =
      (.noError, [0x200000], m)) :
    Reached 128 ⟨0x200000, 0x300000, by decide, by decide⟩ m [(0x200000, 0x202000)] :=
  have hinstall : installMemory true true 0x200000 0x100000 = .ok pagesNode := rfl
  .claimed (.install true 0x200000 0x100000 (by decide) rfl rfl hinstall) true 0x1000 0x2000
    (by decide) (fun _ => ⟨12, rfl⟩) (by decide) he

theorem available_exact_pages :
    let m := (fMemoryClaim 128 true true pagesNode [0x1000, 0x2000]).2.2
    ∃ l, decodeReg (m.available.length / 8) m.available = l ∧ Separated l ∧
      cover l = Set.Ico 0x200000 0x300000 \ cover [(0x200000, 0x202000)] := by
  intro m
  obtain ⟨l, h1, h2, h3, -⟩ := available_exact (reached_pages (m := m) rfl)
  exact ⟨l, h1, h2, h3⟩

/-- The addresses from which `sz` unclaimed bytes of the region follow. -/
def Room (R : Region 1 1) (L : List (Nat × Nat)) (sz x : Nat) : Prop :=
  Set.Ico x (x + sz) ⊆ Set.Ico R.lo R.hi ∧
    ∀ i ∈ L, Disjoint (Set.Ico x (x + sz)) (Set.Ico i.1 i.2)

theorem room_iff (h : Ledger R a L) : Room R L sz x ↔ Set.Ico x (x + sz) ⊆ a.free := by
  rw [h.free, Set.subset_sdiff, disjoint_cover_iff]
  rfl

/-- An aligned claim is given the lowest address from which there is room, and is refused only
where there is none. -/
theorem claim_least (h : Reached stackSize R m L) {algn sz : BitVec 32} (hsz : 0 < sz.toNat)
    (halgn : ∃ k, algn.toNat = 2 ^ k) (hst : stack.length + 3 < stackSize) :
    (∃ base m', fMemoryClaim stackSize true true m (algn :: sz :: stack) =
        (.noError, base :: stack, m') ∧
      IsLeast {x | algn.toNat ∣ x ∧ Room R L sz.toNat x} base.toNat) ∨
    (fMemoryClaim stackSize true true m (algn :: sz :: stack) = (.eOutOfStorage, 0 :: stack, m) ∧
      ∀ x, algn.toNat ∣ x → ¬ Room R L sz.toNat x) := by
  obtain ⟨hf, hl⟩ := h.ledger
  have hne : algn ≠ 0 := by
    rintro rfl
    obtain ⟨k, hk⟩ := halgn
    have := Nat.two_pow_pos k
    exact absurd hk.symm this.ne'
  have hsz' : 0 < (cell sz).val := by rwa [cell_val]
  have hck : ifcksp stackSize 2 1 (algn :: sz :: stack) = none := by
    rw [ifcksp, if_neg (by simp), if_neg (by simp only [List.length_cons]; omega)]
  have hr : fMemoryClaim stackSize true true m (algn :: sz :: stack) =
      finishClaim true m stack ((allocAligned true m.allocator (cell algn) (cell sz) (cell 0)).1,
        (allocAligned true m.allocator (cell algn) (cell sz) (cell 0)).2.1,
        (allocAligned true m.allocator (cell algn) (cell sz) (cell 0)).2.2.1) := by
    simp only [fMemoryClaim, hck, if_neg hne]
  have hp := allocConstrained_placed true none none (some (cell algn)) none hl.sound hsz'
        (fun m hm => by cases hm)
    (fun l hl => by cases hl; exact power_cell halgn) (cell 0)
  have hall : ∀ {x}, Allowed (none : Option (Cells 1)) none (some (cell algn).val)
      (cell sz).val x ↔
      algn.toNat ∣ x := by
    intro x
    rw [← cell_val]
    exact ⟨fun h => h.aligned, fun h => ⟨(fun m hm => by cases hm), (fun m hm => by cases hm), h⟩⟩
  rw [hr]
  rw [allocAligned]
  generalize (allocConstrained true m.allocator none none (some (cell algn)) none (cell sz)
    (cell 0)) = r at hp ⊢
  obtain ⟨ret, a', addr, align'⟩ := r
  simp only at hp ⊢
  cases hp with
  | none hn =>
    refine .inr ⟨?_, fun x hx hroom => ?_⟩
    · have hm : (makeAvailable true m).2 = m := by rw [makeAvailable_eq, ← hf]
      exact congrArg (fun n => (Alloc.Retcode.eOutOfStorage, 0 :: stack, n)) hm
    · have hfree := (room_iff hl).1 hroom
      rw [← cell_val] at hfree
      exact hn rfl x (hall.2 hx) hfree
  | place hpl _ hfit hleast hc =>
    obtain rfl : ret = .noError := by
      cases hc with
      | done => rfl
      | taken hi => exact absurd hfit hi
      | memory _ hm => cases hm
    refine .inl ⟨addr.head, _, rfl, ⟨?_, ?_⟩⟩
    · rw [head_toNat]
      refine ⟨hall.1 hpl, (room_iff hl).2 ?_⟩
      rwa [← cell_val]
    · rintro x ⟨hx, hroom⟩
      have hfree := (room_iff hl).1 hroom
      rw [← cell_val] at hfree
      rw [head_toNat]
      exact hleast rfl x (hall.2 hx) hfree

theorem claim_least_pages :
    let m := (fMemoryClaim 128 true true pagesNode [0x1000, 0x2000]).2.2
    (fMemoryClaim 128 true true m [0x1000, 0x1000]).2.1 = [0x202000] ∧
      ((∃ base m', fMemoryClaim 128 true true m [0x1000, 0x1000] = (.noError, [base], m') ∧
        IsLeast {x | 0x1000 ∣ x ∧ Room ⟨0x200000, 0x300000, by decide, by decide⟩
          [(0x200000, 0x202000)] 0x1000 x} base.toNat) ∨
      (fMemoryClaim 128 true true m [0x1000, 0x1000] = (.eOutOfStorage, [0], m) ∧
        ∀ x, 0x1000 ∣ x → ¬ Room ⟨0x200000, 0x300000, by decide, by decide⟩
          [(0x200000, 0x202000)] 0x1000 x)) := by
  intro m
  have hsz : 0 < (0x1000 : BitVec 32).toNat := by decide
  have halgn : ∃ k, (0x1000 : BitVec 32).toNat = 2 ^ k := ⟨12, rfl⟩
  exact ⟨rfl, claim_least (reached_pages (m := m) rfl) hsz halgn (by decide)⟩

end Pegasos2.MemoryNode
