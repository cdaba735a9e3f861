import Mathlib.Data.Vector.Basic
import Pegasos2.Limbs

namespace Pegasos2.Alloc
set_option autoImplicit true

/-- The return codes of the allocator and of the node that works with it. -/
inductive Retcode where
  | noError
  | eOutOfMemory
  | eOutOfStorage
  | eBadArgument
  | eStackUnderflow
  | eStackOverflow
  deriving DecidableEq, Repr

/-- An array of `n` cells, lowest cell first. -/
abbrev Cells (n : Nat) := List.Vector (BitVec 32) n

namespace Cells

/-- The number in the cells. -/
def val (a : Cells n) : Nat := Limbs.val a.toList

theorem val_lt (a : Cells n) : a.val < 2 ^ (32 * n) := by
  have h := Limbs.val_lt a.toList
  rwa [a.toList_length] at h

/-- The first cells of an array, for the calls that pass `scells` with an address. -/
def low (m : Nat) (h : m ≤ n) (a : Cells n) : Cells m :=
  ⟨a.toList.take m, by rw [List.length_take, a.toList_length, Nat.min_eq_left h]⟩

theorem low_val (h : m ≤ n) (a : Cells n) : (a.low m h).val = a.val % 2 ^ (32 * m) :=
  Limbs.val_take _ (h.trans_eq a.toList_length.symm)

end Cells

def zero (a : Cells n) : Bool := a.toList.all (· == 0)

theorem zero_iff {a : Cells n} : zero a = true ↔ a.val = 0 := by
  rw [zero, List.all_eq_true, Cells.val, Limbs.val_eq_zero]
  simp only [beq_iff_eq]

theorem zero_eq_false {a : Cells n} : zero a = false ↔ 0 < a.val := by
  rw [← Bool.not_eq_true, zero_iff, Nat.pos_iff_ne_zero]

/-- The loop of `cmp`, over the cells from the highest one down. -/
def cmpLoop : List (BitVec 32) → List (BitVec 32) → Ordering
  | x :: a, y :: b => if x < y then .lt else if x > y then .gt else cmpLoop a b
  | _, _ => .eq

def cmp (a b : Cells n) : Ordering := cmpLoop a.toList.reverse b.toList.reverse

theorem cmpLoop_append {a b u v : List (BitVec 32)} (h : a.length = b.length) :
    cmpLoop (a ++ u) (b ++ v) = (cmpLoop a b).then (cmpLoop u v) := by
  induction a generalizing b with
  | nil =>
    rw [List.length_eq_zero_iff.1 h.symm]
    rfl
  | cons x a ih =>
    cases b with
    | nil => cases h
    | cons y b =>
      rw [List.cons_append, List.cons_append, cmpLoop, cmpLoop, ih (Nat.succ.inj h)]
      split
      · rfl
      · split <;> rfl

theorem cmpLoop_single (x y : BitVec 32) : cmpLoop [x] [y] = compare x.toNat y.toNat := by
  simp only [cmpLoop, gt_iff_lt, BitVec.lt_def]
  obtain h | h | h := lt_trichotomy x.toNat y.toNat
  · rw [if_pos h, compare_lt_iff_lt.2 h]
  · rw [h, if_neg (lt_irrefl _), if_neg (lt_irrefl _), compare_eq_iff_eq.2 rfl]
  · rw [if_neg (not_lt.2 h.le), if_pos h, compare_gt_iff_gt.2 h]

theorem cmpLoop_reverse {a b : List (BitVec 32)} (h : a.length = b.length) :
    cmpLoop a.reverse b.reverse = Limbs.cmpFrom a b := by
  induction a generalizing b with
  | nil =>
    rw [List.length_eq_zero_iff.1 h.symm]
    rfl
  | cons x a ih =>
    cases b with
    | nil => cases h
    | cons y b =>
      have hlen := Nat.succ.inj h
      rw [List.reverse_cons, List.reverse_cons, cmpLoop_append (by simpa using hlen), ih hlen,
        cmpLoop_single, Limbs.cmpFrom]

theorem cmp_eq (a b : Cells n) : cmp a b = compare a.val b.val := by
  have h : a.toList.length = b.toList.length := a.toList_length.trans b.toList_length.symm
  rw [cmp, cmpLoop_reverse h, Limbs.cmpFrom_eq h]
  rfl

/-- The cells of the result, and `sum != 0`. -/
def and (a b : Cells n) : Cells n × Bool :=
  let c : Cells n := ⟨List.zipWith (· &&& ·) a.toList b.toList, by
    rw [List.length_zipWith, a.toList_length, b.toList_length, Nat.min_self]⟩
  (c, !zero c)

theorem and_val (a b : Cells n) : (and a b).1.val = a.val &&& b.val :=
  Limbs.val_and (a.toList_length.trans b.toList_length.symm)

theorem and_snd (a b : Cells n) : (and a b).2 = true ↔ a.val &&& b.val ≠ 0 := by
  have h : (and a b).2 = !zero (and a b).1 := rfl
  rw [h, Bool.not_eq_true', zero_eq_false, and_val, Nat.pos_iff_ne_zero]

/-- The cells of the sum, and the carry. -/
def add (a : Cells n) (b : Cells m) : Cells n × Bool :=
  let r := Limbs.addc false a.toList b.toList
  (⟨r.1, by rw [Limbs.addc_length, a.toList_length]⟩, r.2)

/-- The cells of the difference, and the borrow. -/
def sub (a : Cells n) (b : Cells m) : Cells n × Bool :=
  let r := Limbs.subb false a.toList b.toList
  (⟨r.1, by rw [Limbs.subb_length, a.toList_length]⟩, r.2)

theorem add_val (h : m ≤ n) (a : Cells n) (b : Cells m) :
    (add a b).1.val = (a.val + b.val) % 2 ^ (32 * n) := by
  have hv := Limbs.addc_val_mod (w := 32) (by decide) (a := a.toList) (b := b.toList)
    (by rwa [a.toList_length, b.toList_length])
  rwa [a.toList_length] at hv

theorem sub_val (h : m ≤ n) {a : Cells n} {b : Cells m} (hle : b.val ≤ a.val) :
    (sub a b).1.val = a.val - b.val :=
  Limbs.subb_val_sub (by decide) (by rwa [a.toList_length, b.toList_length]) hle

/-- The loop of `addcmp`: two sums side by side, and the last pair of cells in which they
differ. -/
def addcmpLoop (carryab carrycd : Bool) (x : Ordering) :
    List (BitVec 32) → List (BitVec 32) → List (BitVec 32) → List (BitVec 32) → Ordering
  | t1 :: a, b, t2 :: c, d =>
    let t3 := t1 + b.headD 0
    let t4 := t2 + d.headD 0
    let t5 := t3 + Limbs.flag carryab
    let t6 := t4 + Limbs.flag carrycd
    addcmpLoop (decide (t3 < t1) || decide (t5 < t3)) (decide (t4 < t2) || decide (t6 < t4))
      (if t5 < t6 then .lt else if t5 > t6 then .gt else x) a b.tail c d.tail
  | _, _, _, _ => x

/-- `b` and `d` are `NULL` or have `m` cells. -/
def addcmp (a : Cells n) (b : Option (Cells m)) (c : Cells n) (d : Option (Cells m)) : Ordering :=
  addcmpLoop false false .eq a.toList ((b.map List.Vector.toList).getD []) c.toList
    ((d.map List.Vector.toList).getD [])

theorem addcmpLoop_eq (cab ccd : Bool) (x : Ordering) {a b c d : List (BitVec 32)}
    (h : a.length = c.length) :
    addcmpLoop cab ccd x a b c d =
      (Limbs.cmpFrom (Limbs.addc cab a b).1 (Limbs.addc ccd c d).1).then x := by
  induction a generalizing cab ccd x b c d with
  | nil =>
    rw [List.length_eq_zero_iff.1 h.symm]
    rfl
  | cons t1 a ih =>
    cases c with
    | nil => cases h
    | cons t2 c =>
      rw [addcmpLoop, ih _ _ _ (Nat.succ.inj h), Limbs.addc, Limbs.addc, Limbs.cmpFrom,
        Ordering.then_assoc]
      congr 1
      generalize t1 + b.headD 0 + Limbs.flag cab = t5
      generalize t2 + d.headD 0 + Limbs.flag ccd = t6
      rw [← cmpLoop_single, cmpLoop]
      split
      · rfl
      · split <;> rfl

/-- The sums are compared as they wrap: the carries out of the last cells are lost. -/
theorem addcmp_eq (h : m ≤ n) (a c : Cells n) (b d : Option (Cells m)) :
    addcmp a b c d = compare ((a.val + (b.map Cells.val).getD 0) % 2 ^ (32 * n))
      ((c.val + (d.map Cells.val).getD 0) % 2 ^ (32 * n)) := by
  have hlen : a.toList.length = c.toList.length := a.toList_length.trans c.toList_length.symm
  have hb (a : Cells n) (b : Option (Cells m)) :
      Limbs.val (Limbs.addc false a.toList ((b.map List.Vector.toList).getD [])).1 =
        (a.val + (b.map Cells.val).getD 0) % 2 ^ (32 * n) := by
    have hv := Limbs.addc_val_mod (w := 32) (by decide) (a := a.toList)
      (b := (b.map List.Vector.toList).getD []) (by cases b with
        | none => exact Nat.zero_le _
        | some b =>
          rw [Option.map_some, Option.getD_some, a.toList_length, b.toList_length]
          exact h)
    rw [a.toList_length] at hv
    rw [hv]
    cases b <;> rfl
  rw [addcmp, addcmpLoop_eq _ _ _ hlen, Limbs.cmpFrom_eq (by rw [Limbs.addc_length,
    Limbs.addc_length, hlen]), hb, hb]
  exact Ordering.then_eq

/-- A free block. A size of zero stands for a block of 2^n bytes. -/
structure Block (acells scells : Nat) where
  addr : Cells acells
  size : Cells scells
  deriving DecidableEq

/-- The allocator and its list of free blocks. `alloc_init` refuses sizes with more cells than
addresses have. -/
structure Allocator (acells scells : Nat) where
  list : List (Block acells scells)
  scells_le : scells ≤ acells
  deriving DecidableEq

variable {acells scells : Nat}

/-- `malloc` says whether there is memory for the allocator. -/
def allocInit (malloc : Bool) (acells scells : Nat) :
    Except Retcode (Allocator acells scells) :=
  if h : acells < scells then .error .eBadArgument
  else if malloc then .ok ⟨[], Nat.le_of_not_lt h⟩
  else .error .eOutOfMemory

/-- The walk of `alloc_fixed` and `free_block` to the first block that does not lie below `addr`.
The blocks that were passed are kept last one first, so that `p` is their head. -/
def findSpot (addr : Cells acells) (passed : List (Block acells scells)) :
    List (Block acells scells) → List (Block acells scells) × List (Block acells scells)
  | [] => (passed, [])
  | b :: rest =>
    if (cmp addr b.addr).isLE then (passed, b :: rest) else findSpot addr (b :: passed) rest

/-- `alloc_fixed` where the block `b` starts at the address. -/
def allocAtStart (a : Allocator acells scells) (size : Cells scells)
    (p : List (Block acells scells)) (b : Block acells scells) (rest : List (Block acells scells)) :
    Retcode × Allocator acells scells :=
  let fsblock := zero b.size
  let x := cmp b.size size
  if !fsblock && x.isLT then (.eOutOfStorage, a)
  else if x.isEq then (.noError, { a with list := p.reverse ++ rest })
  else (.noError, { a with
    list := p.reverse ++ { addr := (add b.addr size).1, size := (sub b.size size).1 } :: rest })

/-- `alloc_fixed` where the memory lies in or after the block `p`. -/
def allocInside (malloc : Bool) (a : Allocator acells scells) (addr : Cells acells)
    (size : Cells scells) (p : List (Block acells scells)) (rest : List (Block acells scells)) :
    Retcode × Allocator acells scells :=
  match p with
  | [] => (.eOutOfStorage, a)
  | p :: passed =>
    let fsblock := zero p.size
    let x := addcmp p.addr (some p.size) addr (some size)
    if !fsblock && x.isLT then (.eOutOfStorage, a)
    else if x.isEq then
      (.noError, { a with
        list := passed.reverse ++ { p with size := (sub p.size size).1 } :: rest })
    else if malloc then
      let baddr := (add addr size).1
      let t1 := (sub (add p.addr p.size).1 baddr).1
      let bsize := t1.low scells a.scells_le
      let psize := (sub (sub p.size size).1 bsize).1
      (.noError, { a with list :=
        passed.reverse ++ { p with size := psize } :: { addr := baddr, size := bsize } :: rest })
    else (.eOutOfMemory, a)

/-- `malloc` says whether there is memory for one more block. -/
def allocFixed (malloc : Bool) (a : Allocator acells scells) (addr : Cells acells)
    (size : Cells scells) : Retcode × Allocator acells scells :=
  let fsalloc := zero size
  if fsalloc && !zero (addr.low scells a.scells_le) then (.eBadArgument, a)
  else match findSpot addr [] a.list with
    | (p, b :: rest) =>
      if (cmp addr b.addr).isEq then allocAtStart a size p b rest
      else allocInside malloc a addr size p (b :: rest)
    | (p, []) => allocInside malloc a addr size p []

/-- The memory of one block from which `alloc_constrained` would allocate. -/
structure Candidate (acells scells : Nat) where
  addr : Cells acells
  bsize : Cells scells
  fsblock : Bool

/-- Moves the candidate up. Where that leaves nothing of the block the next block is tried, with
the address as it was. -/
def Candidate.skip (h : scells ≤ acells) (c : Candidate acells scells) (off : Cells acells) :
    Except (Cells acells) (Candidate acells scells) :=
  if !c.fsblock && (cmp (off.low scells h) c.bsize).isGE then .error c.addr
  else .ok {
    addr := (add c.addr (off.low scells h)).1
    bsize := (sub c.bsize (off.low scells h)).1
    fsblock := false }

def applyMin (h : scells ≤ acells) (min : Option (Cells acells)) (c : Candidate acells scells) :
    Except (Cells acells) (Candidate acells scells) :=
  match min with
  | none => .ok c
  | some min => if (cmp c.addr min).isLT then c.skip h (sub min c.addr).1 else .ok c

/-- The cell that `alloc_constrained` calls `one`. -/
def one : Cells 1 := ⟨[1], rfl⟩

/-- `align` is a mask here. -/
def applyAlign (h : scells ≤ acells) (align : Option (Cells acells))
    (c : Candidate acells scells) : Except (Cells acells) (Candidate acells scells) :=
  match align with
  | none => .ok c
  | some align =>
    let off := and c.addr align
    if off.2 then c.skip h (add (sub align off.1).1 one).1 else .ok c

/-- What `alloc_constrained` does with a block: go on with the next one, stop, or allocate from
it. -/
inductive Verdict (acells : Nat) where
  | next (addr : Cells acells)
  | stop (addr : Cells acells)
  | take (addr : Cells acells)

def consider (h : scells ≤ acells) (min max align mask : Option (Cells acells))
    (size : Cells scells) (b : Block acells scells) : Verdict acells :=
  let c : Candidate acells scells := { addr := b.addr, bsize := b.size, fsblock := zero b.size }
  match applyMin h min c >>= applyAlign h align with
  | .error addr => .next addr
  | .ok c =>
    if max.any fun max => (cmp (add c.addr size).1 max).isGT then .stop c.addr
    else if mask.any fun mask => (and c.addr mask).2 then .next c.addr
    else if zero size && !c.fsblock then .next c.addr
    else if !c.fsblock && (cmp c.bsize size).isLT then .next c.addr
    else .take c.addr

/-- The loop of `alloc_constrained`. The last result is what it leaves in `addr`. -/
def constrainedLoop (malloc : Bool) (a : Allocator acells scells)
    (min max align mask : Option (Cells acells)) (size : Cells scells) :
    List (Block acells scells) → Cells acells → Retcode × Allocator acells scells × Cells acells
  | [], addr => (.eOutOfStorage, a, addr)
  | b :: rest, _ =>
    match consider a.scells_le min max align mask size b with
    | .next addr => constrainedLoop malloc a min max align mask size rest addr
    | .stop addr => (.eOutOfStorage, a, addr)
    | .take addr =>
      let r := allocFixed malloc a addr size
      (r.1, r.2, addr)

/-- The results are the code, the allocator, and what is left in `addr` and in `align`. -/
def allocConstrained (malloc : Bool) (a : Allocator acells scells)
    (min max align mask : Option (Cells acells)) (size : Cells scells) (addr : Cells acells) :
    Retcode × Allocator acells scells × Cells acells × Option (Cells acells) :=
  -- a power of two becomes a mask, in place
  let align := align.map fun align => (sub align one).1
  let r := constrainedLoop malloc a min max align mask size a.list addr
  (r.1, r.2.1, r.2.2, align)

def allocAligned (malloc : Bool) (a : Allocator acells scells) (align : Cells acells)
    (size : Cells scells) (addr : Cells acells) :
    Retcode × Allocator acells scells × Cells acells × Option (Cells acells) :=
  allocConstrained malloc a none none (some align) none size addr

/-- The loop of `alloc_block`. -/
def blockLoop (malloc : Bool) (a : Allocator acells scells) (size : Cells scells) :
    List (Block acells scells) → Cells acells → Retcode × Allocator acells scells × Cells acells
  | [], addr => (.eOutOfStorage, a, addr)
  | b :: rest, addr =>
    let fsblock := zero b.size
    if zero size && !fsblock then blockLoop malloc a size rest addr
    else if fsblock || (cmp b.size size).isGE then
      let r := allocFixed malloc a b.addr size
      (r.1, r.2, b.addr)
    else blockLoop malloc a size rest addr

def allocBlock (malloc : Bool) (a : Allocator acells scells) (size : Cells scells)
    (addr : Cells acells) : Retcode × Allocator acells scells × Cells acells :=
  blockLoop malloc a size a.list addr

/-- `free_block` where the block `p` ends at the address. `x` tells the end of the freed memory from
the block behind it. -/
def consolidate (a : Allocator acells scells) (size : Cells scells) (x : Ordering)
    (passed : List (Block acells scells)) (p : Block acells scells) :
    List (Block acells scells) → Allocator acells scells
  | b :: rest =>
    let psize := (add p.size size).1
    if x.isEq then
      { a with list := passed.reverse ++ { p with size := (add psize b.size).1 } :: rest }
    else { a with list := passed.reverse ++ { p with size := psize } :: b :: rest }
  | [] => { a with list := passed.reverse ++ [{ p with size := (add p.size size).1 }] }

/-- `free_block` where no block ends at the address. -/
def insertBlock (malloc : Bool) (a : Allocator acells scells) (addr : Cells acells)
    (size : Cells scells) (x : Ordering) (passed : List (Block acells scells)) :
    List (Block acells scells) → Retcode × Allocator acells scells
  | b :: rest =>
    if x.isEq then (.noError, { a with
      list := passed.reverse ++ { addr := addr, size := (add b.size size).1 } :: rest })
    else if malloc then (.noError, { a with
      list := passed.reverse ++ { addr := addr, size := size } :: b :: rest })
    else (.eOutOfMemory, a)
  | [] =>
    if malloc then
      (.noError, { a with list := passed.reverse ++ [{ addr := addr, size := size }] })
    else (.eOutOfMemory, a)

/-- `y` of `free_block`: the end of the block below the address, against the address. -/
def frontCmp (addr : Cells acells) : List (Block acells scells) → Ordering
  | p :: _ => addcmp p.addr (some p.size) addr none
  | [] => .lt

/-- `x` of `free_block`: the end of the freed memory, against the block behind it. -/
def behindCmp (addr : Cells acells) (size : Cells scells) : List (Block acells scells) → Ordering
  | b :: _ => addcmp addr (some size) b.addr none
  | [] => .lt

/-- `malloc` says whether there is memory for one more block. -/
def freeBlock (malloc : Bool) (a : Allocator acells scells) (addr : Cells acells)
    (size : Cells scells) : Retcode × Allocator acells scells :=
  let (passed, rest) := findSpot addr [] a.list
  let y := frontCmp addr passed
  let x := behindCmp addr size rest
  if y.isGT then (.eBadArgument, a)
  else if x.isGT then (.eBadArgument, a)
  else match passed with
    | p :: before =>
      if y.isEq then (.noError, consolidate a size x before p rest)
      else insertBlock malloc a addr size x passed rest
    | [] => insertBlock malloc a addr size x passed rest

/-- `alloc_info` from the block at a place of the list, from `NULL` for the first one: the next
place, and the copies of its address and its size. -/
def allocInfo (a : Allocator acells scells) (b : Option Nat) :
    Option (Nat × Cells acells × Cells scells) :=
  let next := match b with
    | none => 0
    | some i => i + 1
  a.list[next]?.map fun block => (next, block.addr, block.size)

end Pegasos2.Alloc
