import Pegasos2.PciWindows

namespace Pegasos2.Pci
open Packing
set_option autoImplicit true

/-- A register with the address bits `addrMask`: writing has no side effects, and address bits
that cannot be written are zero. -/
structure BarReg (r : Reg) (addrMask : Word) : Prop where
  w1c : r.w1c = 0#32
  fixed : r.val &&& ~~~r.rw &&& addrMask = 0#32

theorem Reg.write_restore (r : Reg) (v : Word) (h : r.w1c = 0#32) :
    (r.write v).write r.val = r := by
  have hval : ((r.write v).write r.val).val = r.val := by
    apply BitVec.eq_of_getLsbD_eq
    intro i _
    rw [Reg.getLsbD_write, Reg.write_rw, Reg.write_w1c, Reg.getLsbD_write, h]
    cases r.rw.getLsbD i <;> simp
  cases r
  simp only [Reg.write] at hval ⊢
  rw [hval]

theorem BarReg.mask (h : BarReg r addrMask) :
    (r.write ((r.val &&& ~~~addrMask) ||| addrMask)).val &&& addrMask = r.rw &&& addrMask := by
  apply BitVec.eq_of_getLsbD_eq
  intro i hi
  rw [BitVec.getLsbD_and, BitVec.getLsbD_and, Reg.getLsbD_write, h.w1c, BitVec.getLsbD_or,
    BitVec.getLsbD_zero]
  cases hm : addrMask.getLsbD i with
  | false => rw [Bool.and_false, Bool.and_false]
  | true =>
    cases hrw : r.rw.getLsbD i with
    | true => simp
    | false =>
      have hfix : (r.val &&& ~~~r.rw &&& addrMask).getLsbD i = (0#32).getLsbD i := by rw [h.fixed]
      rw [BitVec.getLsbD_and, BitVec.getLsbD_and, BitVec.getLsbD_not, hm, hrw,
        BitVec.getLsbD_zero, decide_eq_true hi] at hfix
      simpa using hfix

/-- A 64-bit memory BAR, by its type bits. -/
def wide (v : Word) : Bool := v &&& 0x1#32 == 0#32 && v &&& 0x6#32 == 0x4#32

def isIo (v : Word) : Bool := v &&& 0x1#32 != 0#32

/-- What the probe of a register finds. -/
def probeOf (r : Reg) (addrMask : Word) : Probe :=
  if r.rw &&& addrMask = 0#32 then ⟨0#32, r.val &&& ~~~addrMask, false⟩
  else ⟨~~~(r.rw &&& addrMask) + 1#32, r.val &&& ~~~addrMask, wide r.val⟩

theorem pciBarProbe_eq (c : Config) (h : BarReg (c (dword offset)) addrMask) :
    pciBarProbe funcAccess c offset addrMask = (probeOf (c (dword offset)) addrMask, c) := by
  have hback : ∀ v, (c.write (dword offset) v).write (dword offset) (c (dword offset)).val = c := by
    intro v
    rw [Config.write, Config.write_same, Reg.write_restore _ _ h.w1c, Config.write,
      Function.update_idem, Function.update_eq_self]
  simp only [pciBarProbe, funcAccess, Config.write_same, h.mask, hback, probeOf, wide]
  split <;> rfl

/-- A base address register or expansion ROM of a function. -/
structure Bar where
  offset : Nat
  space : Space
  size : Nat
  deriving DecidableEq, Repr

def Range.bar (r : Range) : Bar := ⟨r.offset, r.space, r.size⟩

/-- The ranges that the allocators give to a list of BARs. -/
def allot (loc : Loc) : List Bar → Alloc → List Range × Alloc
  | [], a => ([], a)
  | bar :: l, a =>
    let base := alignUp (a.next bar.space) (BitVec.ofNat 32 bar.size)
    let r := allot loc l (a.set (base + BitVec.ofNat 32 bar.size) bar.space)
    (⟨loc, bar.offset, bar.space, base.toNat, bar.size⟩ :: r.1, r.2)

theorem allot_append (loc : Loc) (l l' : List Bar) (a : Alloc) :
    allot loc (l ++ l') a =
      ((allot loc l a).1 ++ (allot loc l' (allot loc l a).2).1,
        (allot loc l' (allot loc l a).2).2) := by
  induction l generalizing a with
  | nil => rfl
  | cons bar l ih =>
    rw [List.cons_append, allot, allot, ih]
    rfl

/-- What the walker takes for a BAR in slot `i`. -/
def slotBar (r : Reg) (i : Nat) : Option Bar :=
  let addrMask := barAddrMask (isIo r.val)
  if r.rw &&& addrMask = 0#32 then none
  else some ⟨0x10 + i * 4, barSpace (isIo r.val) (r.val &&& ~~~addrMask),
    (~~~(r.rw &&& addrMask) + 1#32).toNat⟩

/-- The slot that the walker goes to after slot `i`. -/
def slotNext (r : Reg) (i : Nat) : Nat :=
  if r.rw &&& barAddrMask (isIo r.val) ≠ 0#32 ∧ wide r.val then i + 2 else i + 1

/-- The BARs that the walker finds in the slots from `i` on. -/
def seenFrom (c : Config) (nb : Nat) : Nat → Nat → List Bar
  | 0, _ => []
  | n + 1, i =>
    if i < nb then (slotBar (c (4 + i)) i).toList ++ seenFrom c nb n (slotNext (c (4 + i)) i)
    else []

/-- The state after ranges of `l` have been assigned. -/
def Assigned (loc : Loc) (l : List Bar) (w w' : Walk Config) : Prop :=
  ranges w'.out = ranges w.out ++ (allot loc l w.alloc).1 ∧ w'.alloc = (allot loc l w.alloc).2

theorem Assigned.nil (loc : Loc) (w : Walk Config) (c : Config) :
    Assigned loc [] w { w with cfg := c } := ⟨(List.append_nil _).symm, rfl⟩

theorem Assigned.append (h : Assigned loc l w w₁) (h' : Assigned loc l' w₁ w₂) :
    Assigned loc (l ++ l') w w₂ := by
  obtain ⟨hout, halloc⟩ := h
  obtain ⟨hout', halloc'⟩ := h'
  rw [Assigned, allot_append, ← halloc]
  exact ⟨by rw [hout', hout, List.append_assoc], halloc'⟩

theorem assign_assigned (loc : Loc) (offset : Nat) (space : Space) (p : Probe)
    (value : Word → Word) (b : Bars Config) :
    Assigned loc [⟨offset, space, p.size.toNat⟩] b.walk
      (assign funcAccess loc offset space p value b).walk := by
  rw [Assigned, assign, ranges_append]
  simp only [allot, BitVec.ofNat_toNat, BitVec.setWidth_eq]
  exact ⟨rfl, trivial⟩

/-- The slot registers are plain address registers, whichever way the walker reads them. -/
def BarRegs (c : Config) (nb : Nat) : Prop :=
  ∀ i < nb, BarReg (c (4 + i)) (barAddrMask (isIo (c (4 + i)).val))

theorem dword_bar (hi : i < 7) : dword (0x10 + i * 4) = 4 + i := by
  rw [dword]
  omega

theorem assign_cfg_of_gt (loc : Loc) (space : Space) (p : Probe) (value : Word → Word)
    (b : Bars Config) (hi : i < 6) (hk : 4 + (if p.is64 then i + 2 else i + 1) ≤ k) :
    (assign funcAccess loc (0x10 + i * 4) space p value b).walk.cfg k = b.walk.cfg k := by
  have hd : dword (0x10 + i * 4) = 4 + i := dword_bar (hi.trans (by decide))
  have hd' : dword (0x10 + i * 4 + 4) = 4 + (i + 1) := by
    rw [dword]
    omega
  rw [assign]
  cases h64 : p.is64 with
  | false =>
    rw [h64, if_neg Bool.false_ne_true] at hk
    simp only [Bool.false_eq_true, if_false, funcAccess, hd]
    exact Config.write_ne _ _ (by omega)
  | true =>
    rw [h64, if_pos rfl] at hk
    simp only [if_true, funcAccess, hd, hd']
    rw [Config.write_ne _ _ (by omega), Config.write_ne _ _ (by omega)]

theorem not_add_one_eq_zero {m : Word} (hm : m ≠ 0#32) : ~~~m + 1#32 ≠ 0#32 := by
  rw [← BitVec.neg_eq_not_add]
  exact fun h => hm (BitVec.neg_eq_zero_iff.1 h)

theorem barStep_assigned (loc : Loc) (b : Bars Config) (hi : i < 6)
    (hr : BarReg r (barAddrMask (isIo r.val))) (hcfg : b.walk.cfg (4 + i) = r) :
    Assigned loc (slotBar r i).toList b.walk (barStep funcAccess loc i b).1.walk ∧
      (barStep funcAccess loc i b).2 = slotNext r i ∧
      ∀ k, 4 + slotNext r i ≤ k → (barStep funcAccess loc i b).1.walk.cfg k = b.walk.cfg k := by
  have hd : dword (0x10 + i * 4) = 4 + i := dword_bar (hi.trans (by decide))
  have hio : (funcAccess.read32 b.walk.cfg (0x10 + i * 4) &&& 0x1#32 != 0#32) = isIo r.val := by
    simp only [funcAccess, hd, hcfg, isIo]
  have hprobe : pciBarProbe funcAccess b.walk.cfg (0x10 + i * 4) (barAddrMask (isIo r.val)) =
      (probeOf r (barAddrMask (isIo r.val)), b.walk.cfg) := by
    rw [pciBarProbe_eq _ (by rw [hd, hcfg]; exact hr), hd, hcfg]
  simp only [barStep, hio, hprobe]
  by_cases hm : r.rw &&& barAddrMask (isIo r.val) = 0#32
  · have hbar : slotBar r i = none := if_pos hm
    have hnext : slotNext r i = i + 1 := if_neg fun h => h.1 hm
    rw [probeOf, if_pos hm, hbar, hnext]
    exact ⟨.nil loc _ _, rfl, fun _ _ => rfl⟩
  · have hbar : slotBar r i = some ⟨0x10 + i * 4, barSpace (isIo r.val)
        (r.val &&& ~~~barAddrMask (isIo r.val)),
        (~~~(r.rw &&& barAddrMask (isIo r.val)) + 1#32).toNat⟩ := if_neg hm
    have hnext : slotNext r i = if wide r.val then i + 2 else i + 1 := by
      rw [slotNext]
      simp only [hm, ne_eq, not_false_eq_true, true_and]
    rw [probeOf, if_neg hm, hbar, hnext, if_neg (not_add_one_eq_zero hm)]
    exact ⟨assign_assigned loc _ _ _ _ _, rfl, fun k hk => assign_cfg_of_gt loc _ _ _ _ hi hk⟩

theorem barLoop_assigned (loc : Loc) (hregs : BarRegs c nb) (hnb : nb ≤ 6) (n i : Nat)
    (b : Bars Config) (hcfg : ∀ k, 4 + i ≤ k → b.walk.cfg k = c k) :
    Assigned loc (seenFrom c nb n i) b.walk (barLoop funcAccess loc nb n i b).walk := by
  induction n generalizing i b with
  | zero => exact .nil loc _ _
  | succ n ih =>
    rw [seenFrom, barLoop]
    by_cases hi : i < nb
    · obtain ⟨hstep, hnext, hkeep⟩ :=
        barStep_assigned loc b (by omega) (hregs i hi) (hcfg (4 + i) (Nat.le_refl _))
      have hle : i ≤ slotNext (c (4 + i)) i := by
        rw [slotNext]
        split <;> omega
      rw [if_pos hi, if_pos hi]
      simp only [hnext]
      refine hstep.append (ih _ _ fun k hk => ?_)
      rw [hkeep k hk, hcfg k (by omega)]
    · rw [if_neg hi, if_neg hi]
      exact .nil loc _ _

def romMask : Word := 0xFFFFF800#32

/-- The expansion ROM. -/
def romBar (r : Reg) (offset : Nat) : Option Bar :=
  if r.rw &&& romMask = 0#32 then none
  else some ⟨offset, .mem, (~~~(r.rw &&& romMask) + 1#32).toNat⟩

theorem romStep_assigned (loc : Loc) (offset : Nat) (b : Bars Config)
    (hr : BarReg r romMask) (hcfg : b.walk.cfg (dword offset) = r) :
    Assigned loc (romBar r offset).toList b.walk (romStep funcAccess loc offset b).walk := by
  have hprobe : pciBarProbe funcAccess b.walk.cfg offset 0xFFFFF800#32 =
      (probeOf r romMask, b.walk.cfg) := by
    rw [pciBarProbe_eq _ (by rw [hcfg]; exact hr), hcfg, romMask]
  simp only [romStep, hprobe]
  by_cases hm : r.rw &&& romMask = 0#32
  · have hbar : romBar r offset = none := if_pos hm
    rw [probeOf, if_pos hm, hbar]
    exact .nil loc _ _
  · have hbar : romBar r offset = some ⟨offset, .mem, (~~~(r.rw &&& romMask) + 1#32).toNat⟩ :=
      if_neg hm
    rw [probeOf, if_neg hm, hbar, if_neg (not_add_one_eq_zero hm)]
    exact assign_assigned loc _ _ _ _ _

/-- The BARs that the walker finds in a function. -/
def seenBars (c : Config) : List Bar :=
  seenFrom c (numBars (headerType c)) (numBars (headerType c)) 0 ++
    (romBar (c (dword (romOffset (headerType c)))) (romOffset (headerType c))).toList

structure PlainRegs (c : Config) : Prop where
  bars : BarRegs c (numBars (headerType c))
  rom : BarReg (c (dword (romOffset (headerType c)))) romMask

theorem numBars_le (ht : BitVec 8) : numBars ht ≤ 6 := by
  rw [numBars]
  split <;> decide

theorem probeAssignAndPrintBars_assigned (loc : Loc) (w : Walk Config) (h : PlainRegs w.cfg) :
    Assigned loc (seenBars w.cfg) w
      (probeAssignAndPrintBars funcAccess loc (headerType w.cfg) w).walk := by
  have hbars := barLoop_assigned loc h.bars (numBars_le _) (numBars (headerType w.cfg)) 0
    ⟨w, 0#16⟩ fun _ _ => rfl
  have hrom : dword (romOffset (headerType w.cfg)) ∉ [4, 5, 6, 7, 8, 9, 10] := by
    rw [romOffset]
    split <;> decide
  have htouch : Touches [4, 5, 6, 7, 8, 9, 10] w.cfg (barLoop funcAccess loc
      (numBars (headerType w.cfg)) (numBars (headerType w.cfg)) 0 ⟨w, 0#16⟩).walk.cfg := by
    refine barLoop_touches (fun i hi => ?_) _ _ ⟨w, 0#16⟩
    have hle := hi.trans (numBars_le _)
    rw [dword_bar (by omega)]
    interval_cases i <;> decide
  exact hbars.append (romStep_assigned loc _ _ h.rom (htouch.frame _ hrom))

theorem Assigned.report (h : Assigned loc l w w') (c : Config) (x : Line) (hx : x.range = none) :
    Assigned loc l w { w' with cfg := c, out := w'.out ++ [x] } := by
  refine ⟨?_, h.2⟩
  have hnil : ranges [x] = [] := by rw [ranges, List.filterMap_cons_none hx, List.filterMap_nil]
  rw [ranges_append, h.1, hnil, List.append_nil]

/-- The scan of a function assigns ranges to the BARs it finds, in their order. -/
theorem entered_assigned (b dev fn : Nat) (c : Config) (s : Scan) (h : PlainRegs c) :
    Assigned ⟨BitVec.ofNat 8 b, dev, fn⟩ (seenBars c) (s.walk c) (entered b dev fn c s) := by
  rw [entered]
  generalize Loc.mk (BitVec.ofNat 8 b) dev fn = loc
  generalize hw : s.walk c = w
  have hc : w.cfg = c := by rw [← hw, Scan.walk]
  subst hc
  have hdevice : Assigned loc [] w { w with out := w.out ++ [.device loc
      (readHeader funcAccess w.cfg).vendor (readHeader funcAccess w.cfg).device
      (readHeader funcAccess w.cfg).cls (readHeader funcAccess w.cfg).headerType] } :=
    (Assigned.nil loc w w.cfg).report w.cfg _ rfl
  have hbars := hdevice.append (probeAssignAndPrintBars_assigned loc { w with
      out := w.out ++ [.device loc (readHeader funcAccess w.cfg).vendor
        (readHeader funcAccess w.cfg).device (readHeader funcAccess w.cfg).cls
        (readHeader funcAccess w.cfg).headerType] } h)
  simp only [enterFunction]
  rw [List.nil_append] at hbars
  have hht : (readHeader funcAccess w.cfg).headerType = headerType w.cfg := rfl
  rw [hht] at hbars ⊢
  generalize probeAssignAndPrintBars funcAccess loc (headerType w.cfg) _ = b at hbars ⊢
  by_cases hcmd : b.cmdBits = 0#16
  · rw [if_pos hcmd]
    exact hbars
  · rw [if_neg hcmd]
    exact hbars.report _ _ rfl

/-- The writable address bits of a BAR whose size is a power of two. -/
def PowMask (w m : Nat) : Prop := m = 0 ∨ ∃ k, k < w ∧ m = 2 ^ w - 2 ^ k

theorem PowMask.size (h : PowMask w m) (hm : m ≠ 0) : ∃ k, k < w ∧ 2 ^ w - m = 2 ^ k := by
  obtain h | ⟨k, hk, h⟩ := h
  · exact absurd h hm
  · have hle : 2 ^ k ≤ 2 ^ w := Nat.pow_le_pow_right (by decide) hk.le
    exact ⟨k, hk, by rw [h, Nat.sub_sub_self hle]⟩

/-- The address bits of a 64-bit BAR. -/
def wideMask (c : Config) (i : Nat) : Nat :=
  (c (4 + (i + 1))).rw.toNat * 2 ^ 32 + ((c (4 + i)).rw &&& barAddrMask false).toNat

def wideBar (c : Config) (i : Nat) : Option Bar :=
  if wideMask c i = 0 then none
  else some ⟨0x10 + i * 4, barSpace false ((c (4 + i)).val &&& ~~~barAddrMask false),
    2 ^ 64 - wideMask c i⟩

/-- The address bits that a register decodes: an I/O BAR may leave the upper 16 out. -/
def addressBits (r : Reg) : Nat :=
  if isIo r.val ∧ (r.rw &&& barAddrMask true).toNat < 2 ^ 16 then 16 else 32

def narrowBar (r : Reg) (i : Nat) : Option Bar :=
  let addrMask := barAddrMask (isIo r.val)
  if r.rw &&& addrMask = 0#32 then none
  else some ⟨0x10 + i * 4, barSpace (isIo r.val) (r.val &&& ~~~addrMask),
    2 ^ addressBits r - (r.rw &&& addrMask).toNat⟩

/-- The BARs in the slots from `i` on. -/
def barsFrom (c : Config) (nb : Nat) : Nat → Nat → List Bar
  | 0, _ => []
  | n + 1, i =>
    if i < nb then
      if wide (c (4 + i)).val then (wideBar c i).toList ++ barsFrom c nb n (i + 2)
      else (narrowBar (c (4 + i)) i).toList ++ barsFrom c nb n (i + 1)
    else []

/-- The BARs and the expansion ROM of a function. -/
def functionBars (c : Config) : List Bar :=
  barsFrom c (numBars (headerType c)) (numBars (headerType c)) 0 ++
    (romBar (c (dword (romOffset (headerType c)))) (romOffset (headerType c))).toList

/-- The slots from `i` on hold BARs with sizes that are powers of two; a 64-bit BAR takes two
slots. -/
inductive SizedFrom (c : Config) (nb : Nat) : Nat → Prop
  | done (hi : nb ≤ i) : SizedFrom c nb i
  | narrow (hi : i < nb) (hwide : wide (c (4 + i)).val = false)
      (hmask : PowMask (addressBits (c (4 + i)))
        ((c (4 + i)).rw &&& barAddrMask (isIo (c (4 + i)).val)).toNat)
      (hrest : SizedFrom c nb (i + 1)) : SizedFrom c nb i
  | wide (hi : i + 1 < nb) (hwide : wide (c (4 + i)).val = true)
      (hmask : PowMask 64 (wideMask c i)) (hrest : SizedFrom c nb (i + 2)) : SizedFrom c nb i

/-- A function with BARs and a ROM of any sizes that are powers of two. -/
structure Sized (c : Config) : Prop extends PlainRegs c where
  barSizes : SizedFrom c (numBars (headerType c)) 0
  romSize : PowMask 32 ((c (dword (romOffset (headerType c)))).rw &&& romMask).toNat

theorem toNat_not_add_one {m : Word} (hm : m ≠ 0#32) :
    (~~~m + 1#32).toNat = 2 ^ 32 - m.toNat := by
  have hpos : m.toNat ≠ 0 := fun h => hm (BitVec.eq_of_toNat_eq h)
  have hlt := m.isLt
  rw [← BitVec.neg_eq_not_add, BitVec.toNat_neg]
  omega

theorem slotBar_spec (h : slotBar r i = some bar) :
    bar.offset = 0x10 + i * 4 ∧ (r.rw &&& barAddrMask (isIo r.val)).toNat ≠ 0 ∧
      bar.size = 2 ^ 32 - (r.rw &&& barAddrMask (isIo r.val)).toNat := by
  rw [slotBar] at h
  by_cases hm : r.rw &&& barAddrMask (isIo r.val) = 0#32
  · simp only [hm, if_true] at h
    exact absurd h (Option.some_ne_none bar).symm
  · simp only [hm, if_false, Option.some.injEq] at h
    subst h
    exact ⟨rfl, fun hz => hm (BitVec.eq_of_toNat_eq hz), toNat_not_add_one hm⟩

theorem addressBits_eq (r : Reg) :
    addressBits r = 32 ∨ addressBits r = 16 ∧ isIo r.val = true ∧
      (r.rw &&& barAddrMask (isIo r.val)).toNat < 2 ^ 16 := by
  rw [addressBits]
  split_ifs with h
  · exact .inr ⟨rfl, h.1, by rw [h.1]; exact h.2⟩
  · exact .inl rfl

theorem narrowBar_spec (h : narrowBar r i = some bar) :
    bar.offset = 0x10 + i * 4 ∧ (r.rw &&& barAddrMask (isIo r.val)).toNat ≠ 0 ∧
      bar.size = 2 ^ addressBits r - (r.rw &&& barAddrMask (isIo r.val)).toNat := by
  rw [narrowBar] at h
  by_cases hm : r.rw &&& barAddrMask (isIo r.val) = 0#32
  · simp only [hm, if_true] at h
    exact absurd h (Option.some_ne_none bar).symm
  · simp only [hm, if_false, Option.some.injEq] at h
    subst h
    exact ⟨rfl, fun hz => hm (BitVec.eq_of_toNat_eq hz), rfl⟩

theorem narrowBar_small (h : narrowBar r i = some bar) : bar.size < 2 ^ 32 := by
  obtain ⟨-, hne, hsize⟩ := narrowBar_spec h
  obtain hbits | ⟨hbits, -, -⟩ := addressBits_eq r
  · rw [hbits] at hsize
    omega
  · rw [hbits] at hsize
    omega

/-- An I/O BAR that decodes 16 address bits only. -/
def Decodes16 (c : Config) (bar : Bar) : Prop :=
  bar.space = .io ∧ addressBits (c (dword bar.offset)) = 16

instance (c : Config) (bar : Bar) : Decidable (Decodes16 c bar) :=
  inferInstanceAs (Decidable (_ ∧ _))

/-- A BAR with the size that the walker takes it for: the address bits that an I/O BAR does not
decode count as if they were part of the size. -/
def sizedAs (c : Config) (bar : Bar) : Bar :=
  if Decodes16 c bar then { bar with size := bar.size + 0xFFFF0000 } else bar

theorem sizedAs_of_not (h : ¬ Decodes16 c bar) : sizedAs c bar = bar := if_neg h

theorem sizedAs_of_ne (h : bar.space ≠ .io) : sizedAs c bar = bar := if_neg fun hd => h hd.1

theorem wideBar_spec (h : wideBar c i = some bar) :
    bar.offset = 0x10 + i * 4 ∧ wideMask c i ≠ 0 ∧ bar.size = 2 ^ 64 - wideMask c i := by
  rw [wideBar] at h
  by_cases hm : wideMask c i = 0
  · rw [if_pos hm] at h
    exact absurd h (Option.some_ne_none bar).symm
  · rw [if_neg hm, Option.some.injEq] at h
    subst h
    exact ⟨rfl, hm, rfl⟩

theorem barSpace_ne_io (flags : Word) : barSpace false flags ≠ .io := by
  rw [barSpace, if_neg Bool.false_ne_true]
  split <;> decide

theorem wideBar_space (h : wideBar c i = some bar) : bar.space ≠ .io := by
  rw [wideBar] at h
  split at h
  · cases h
  · obtain rfl := Option.some.inj h
    exact barSpace_ne_io _

theorem slotBar_eq (c : Config) (hi : i < 6) :
    (slotBar (c (4 + i)) i).toList = (narrowBar (c (4 + i)) i).toList.map (sizedAs c) := by
  have hd : dword (0x10 + i * 4) = 4 + i := dword_bar (by omega)
  rw [slotBar, narrowBar]
  split_ifs with hm
  · rfl
  · have hsize := toNat_not_add_one hm
    rw [Option.toList_some, Option.toList_some, List.map_singleton, hsize, sizedAs]
    obtain hbits | ⟨hbits, hio, hlt⟩ := addressBits_eq (c (4 + i))
    · rw [if_neg (fun h => absurd (hbits.symm.trans (hd ▸ h.2)) (by decide)), hbits]
    · have hspace : barSpace (isIo (c (4 + i)).val)
          ((c (4 + i)).val &&& ~~~barAddrMask (isIo (c (4 + i)).val)) = .io := by
        rw [hio]
        rfl
      rw [if_pos ⟨hspace, by rw [hd]; exact hbits⟩, hbits]
      congr 2
      dsimp only
      omega

theorem wide_isIo (h : wide v = true) : isIo v = false := by
  rw [wide, Bool.and_eq_true, beq_iff_eq] at h
  rw [isIo, h.1]
  rfl

theorem slotBar_eq_wideBar (hwide : wide (c (4 + i)).val = true)
    (hk : wideMask c i = 2 ^ 64 - 2 ^ k) (hlt : k < 32) :
    slotBar (c (4 + i)) i = wideBar c i ∧ slotNext (c (4 + i)) i = i + 2 := by
  have hio := wide_isIo hwide
  have hlow := ((c (4 + i)).rw &&& barAddrMask false).isLt
  have hhigh := (c (4 + (i + 1))).rw.isLt
  have hpow : 2 ^ k < 2 ^ 32 := Nat.pow_lt_pow_right (by decide) hlt
  have hpos := Nat.two_pow_pos k
  have hne : wideMask c i ≠ 0 := by omega
  have hm : ((c (4 + i)).rw &&& barAddrMask false).toNat = 2 ^ 32 - 2 ^ k := by
    rw [wideMask] at hk
    omega
  have hm' : (c (4 + i)).rw &&& barAddrMask false ≠ 0#32 := by
    intro h
    rw [h] at hm
    simp only [BitVec.toNat_ofNat] at hm
    omega
  constructor
  · rw [slotBar, hio, wideBar, if_neg hne]
    simp only [hm', if_false]
    rw [toNat_not_add_one hm', hm, hk]
    congr 2
    omega
  · rw [slotNext, hio, if_pos ⟨hm', hwide⟩]

theorem seenFrom_unimplemented (hi : i + 1 < nb) (h : wideMask c i = 0)
    (hwide : wide (c (4 + i)).val = true) :
    seenFrom c nb (n + 2) i = seenFrom c nb n (i + 2) := by
  rw [wideMask, Nat.add_eq_zero_iff, Nat.mul_eq_zero] at h
  have hlow : (c (4 + i)).rw &&& barAddrMask (isIo (c (4 + i)).val) = 0#32 := by
    rw [wide_isIo hwide]
    exact BitVec.eq_of_toNat_eq h.2
  have hhigh : (c (4 + (i + 1))).rw &&& barAddrMask (isIo (c (4 + (i + 1))).val) = 0#32 := by
    have hz : (c (4 + (i + 1))).rw = 0#32 :=
      BitVec.eq_of_toNat_eq (h.1.resolve_right (by decide))
    rw [hz, BitVec.zero_and]
  have hbar : slotBar (c (4 + i)) i = none := if_pos hlow
  have hbar' : slotBar (c (4 + (i + 1))) (i + 1) = none := if_pos hhigh
  have hnext : slotNext (c (4 + i)) i = i + 1 := if_neg fun h => h.1 hlow
  have hnext' : slotNext (c (4 + (i + 1))) (i + 1) = i + 2 := if_neg fun h => h.1 hhigh
  rw [seenFrom, if_pos (by omega), hbar, hnext, seenFrom, if_pos hi, hbar', hnext']
  rfl

/-- The walker takes the upper half of a 64-bit BAR of 4 GiB or more for a BAR of its own. -/
theorem seenFrom_huge (hi : i + 1 < nb) (hk : wideMask c i = 2 ^ 64 - 2 ^ k) (hlt : k < 64)
    (hge : 32 ≤ k) (hwide : wide (c (4 + i)).val = true) :
    ∃ bar ∈ seenFrom c nb (n + 2) i, bar.offset = 0x10 + (i + 1) * 4 := by
  have hlow := ((c (4 + i)).rw &&& barAddrMask false).isLt
  have hhigh := (c (4 + (i + 1))).rw.isLt
  have hpow : 2 ^ k = 2 ^ (k - 32) * 2 ^ 32 := by rw [← Nat.pow_add, Nat.sub_add_cancel hge]
  have hle : 2 ^ (k - 32) ≤ 2 ^ 31 := Nat.pow_le_pow_right (by decide) (by omega)
  rw [wideMask, hpow] at hk
  have hm : (c (4 + i)).rw &&& barAddrMask (isIo (c (4 + i)).val) = 0#32 := by
    rw [wide_isIo hwide]
    refine BitVec.eq_of_toNat_eq ?_
    simp only [BitVec.toNat_ofNat]
    omega
  have hm' : (c (4 + (i + 1))).rw &&& barAddrMask (isIo (c (4 + (i + 1))).val) ≠ 0#32 := by
    -- bit 31 is an address bit in every reading of the register
    intro hz
    have hbit := getLsbD_of_and_eq_zero (i := 31) hz (by
      cases isIo (c (4 + (i + 1))).val <;> rfl)
    have hbig : (c (4 + (i + 1))).rw.getLsbD 31 = true := by
      rw [← BitVec.msb_eq_getLsbD_last, BitVec.msb_eq_decide, decide_eq_true_eq]
      omega
    rw [hbit] at hbig
    exact Bool.false_ne_true hbig
  have hbar : slotBar (c (4 + i)) i = none := if_pos hm
  have hnext : slotNext (c (4 + i)) i = i + 1 := if_neg fun h => h.1 hm
  rw [seenFrom, if_pos (by omega), hbar, hnext, seenFrom, if_pos hi]
  cases hbar' : slotBar (c (4 + (i + 1))) (i + 1) with
  | none => exact absurd hbar' (by rw [slotBar]; simp [hm'])
  | some bar =>
    exact ⟨bar, List.mem_append_right _ (List.mem_append_left _ (List.mem_singleton_self bar)),
      (slotBar_spec hbar').1⟩

theorem mem_barsFrom (h : bar ∈ barsFrom c nb n i) :
    0x10 + i * 4 ≤ bar.offset ∧ bar.offset < 0x10 + nb * 4 := by
  induction n generalizing i with
  | zero => exact absurd h List.not_mem_nil
  | succ n ih =>
    rw [barsFrom] at h
    split at h
    next hi =>
      split at h
      · obtain h | h := List.mem_append.1 h
        · have hoff := (wideBar_spec (Option.mem_toList.1 h)).1
          omega
        · have hrest := ih h
          omega
      · obtain h | h := List.mem_append.1 h
        · have hoff := (narrowBar_spec (Option.mem_toList.1 h)).1
          omega
        · have hrest := ih h
          omega
    next hi => exact absurd h List.not_mem_nil

theorem seenFrom_of_le (hi : nb ≤ i) : seenFrom c nb n i = [] := by
  cases n with
  | zero => rfl
  | succ n => rw [seenFrom, if_neg (by omega)]

theorem barsFrom_of_le (hi : nb ≤ i) : barsFrom c nb n i = [] := by
  cases n with
  | zero => rfl
  | succ n => rw [barsFrom, if_neg (by omega)]

/-- What the walker finds in the slots from `i` on are the BARs that are there, or there is one of
4 GiB or more, and then the walker finds a BAR where there is none. -/
def SeenRight (c : Config) (nb i : Nat) (seen bars : List Bar) : Prop :=
  (seen = bars.map (sizedAs c) ∧ ∀ bar ∈ bars, bar.size < 2 ^ 32) ∨
    ((∃ bar ∈ bars, 2 ^ 32 ≤ bar.size) ∧
      ∃ bar ∈ seen, 0x10 + i * 4 ≤ bar.offset ∧ bar.offset < 0x10 + nb * 4 ∧
        ∀ bar' ∈ bars, bar'.offset ≠ bar.offset)

theorem SeenRight.cons (h : SeenRight c nb j seen bars) (hij : i < j)
    (hl : l' = l.map (sizedAs c))
    (hbar : ∀ bar ∈ l, bar.offset = 0x10 + i * 4 ∧ bar.size < 2 ^ 32) :
    SeenRight c nb i (l' ++ seen) (l ++ bars) := by
  obtain ⟨heq, hsmall⟩ | ⟨⟨huge, hmem, hsize⟩, wrong, hwrong, hlo, hhi, hne⟩ := h
  · refine .inl ⟨by rw [heq, hl, List.map_append], fun bar hb => ?_⟩
    exact (List.mem_append.1 hb).elim (fun hb => (hbar bar hb).2) (hsmall bar)
  · refine .inr ⟨⟨huge, List.mem_append_right _ hmem, hsize⟩, wrong,
      List.mem_append_right _ hwrong, by omega, hhi, fun bar hb => ?_⟩
    obtain hb | hb := List.mem_append.1 hb
    · have hoff := (hbar bar hb).1
      omega
    · exact hne bar hb

theorem SizedFrom.seenRight (h : SizedFrom c nb i) (hnb : nb ≤ 6) (hn : nb ≤ i + n)
    (hm : nb ≤ i + m) : SeenRight c nb i (seenFrom c nb n i) (barsFrom c nb m i) := by
  induction h generalizing n m with
  | done hi =>
    rw [seenFrom_of_le hi, barsFrom_of_le hi]
    exact .inl ⟨rfl, fun bar hb => absurd hb List.not_mem_nil⟩
  | @narrow i hi hwide hmask hrest ih =>
    obtain ⟨n, rfl⟩ : ∃ n', n = n' + 1 := ⟨n - 1, by omega⟩
    obtain ⟨m, rfl⟩ : ∃ m', m = m' + 1 := ⟨m - 1, by omega⟩
    have hnext : slotNext (c (4 + i)) i = i + 1 := if_neg fun h => by
      rw [hwide] at h
      exact Bool.false_ne_true h.2
    rw [seenFrom, if_pos hi, hnext, barsFrom, if_pos hi, hwide, if_neg Bool.false_ne_true]
    refine (ih (by omega) (by omega)).cons (Nat.lt_succ_self i) (slotBar_eq c (by omega))
      fun bar hb => ?_
    have hbar := Option.mem_toList.1 hb
    exact ⟨(narrowBar_spec hbar).1, narrowBar_small hbar⟩
  | @wide i hi hwide hmask hrest ih =>
    obtain ⟨n, rfl⟩ : ∃ n', n = n' + 2 := ⟨n - 2, by omega⟩
    obtain ⟨m, rfl⟩ : ∃ m', m = m' + 1 := ⟨m - 1, by omega⟩
    rw [barsFrom, if_pos (by omega), hwide, if_pos rfl]
    obtain hzero | ⟨k, hk, hpow⟩ := hmask
    · have hbar : wideBar c i = none := if_pos hzero
      rw [seenFrom_unimplemented hi hzero hwide, hbar]
      have hnone : ([] : List Bar) = [].map (sizedAs c) := rfl
      exact (ih (by omega) (by omega)).cons (Nat.lt_add_of_pos_right (by decide)) hnone
        fun bar hb => absurd hb List.not_mem_nil
    · by_cases hsmall : k < 32
      · obtain ⟨hbar, hnext⟩ := slotBar_eq_wideBar hwide hpow hsmall
        rw [seenFrom, if_pos (by omega), hbar, hnext]
        have hsame : (wideBar c i).toList = (wideBar c i).toList.map (sizedAs c) := by
          cases hwb : wideBar c i with
          | none => rfl
          | some bar =>
            rw [Option.toList_some, List.map_singleton, sizedAs_of_ne (wideBar_space hwb)]
        refine (ih (by omega) (by omega)).cons (Nat.lt_add_of_pos_right (by decide)) hsame
          fun bar hb => ?_
        rw [← hbar] at hb
        obtain ⟨hoff, hne, hsize⟩ := slotBar_spec (Option.mem_toList.1 hb)
        exact ⟨hoff, by omega⟩
      · obtain ⟨wrong, hwrong, hoff⟩ := seenFrom_huge hi hpow hk (by omega) hwide
        have hlarge : 2 ^ 32 ≤ 2 ^ k := Nat.pow_le_pow_right (by decide) (by omega)
        have hlt : 2 ^ k < 2 ^ 64 := Nat.pow_lt_pow_right (by decide) hk
        have hne : wideMask c i ≠ 0 := by omega
        have hbar : wideBar c i = some _ := if_neg hne
        refine .inr ⟨⟨_, List.mem_append_left _ (Option.mem_toList.2 hbar), ?_⟩, wrong, hwrong,
          by omega, by omega, fun bar hb => ?_⟩
        · rw [(wideBar_spec hbar).2.2]
          omega
        · obtain hb | hb := List.mem_append.1 hb
          · have hoff' := (wideBar_spec (Option.mem_toList.1 hb)).1
            omega
          · have hrange := mem_barsFrom hb
            omega

theorem SizedFrom.size_pow (h : SizedFrom c nb i) (hb : bar ∈ barsFrom c nb n i) :
    ∃ k, bar.size = 2 ^ k := by
  induction h generalizing n with
  | done hi =>
    rw [barsFrom_of_le hi] at hb
    exact absurd hb List.not_mem_nil
  | @narrow i hi hwide hmask hrest ih =>
    cases n with
    | zero => exact absurd hb List.not_mem_nil
    | succ n =>
      rw [barsFrom, if_pos hi, hwide, if_neg Bool.false_ne_true] at hb
      obtain hb | hb := List.mem_append.1 hb
      · obtain ⟨_, hne, hsize⟩ := narrowBar_spec (Option.mem_toList.1 hb)
        obtain ⟨k, _, hk⟩ := hmask.size hne
        exact ⟨k, hsize.trans hk⟩
      · exact ih hb
  | @wide i hi hwide hmask hrest ih =>
    cases n with
    | zero => exact absurd hb List.not_mem_nil
    | succ n =>
      rw [barsFrom, if_pos (by omega), hwide, if_pos rfl] at hb
      obtain hb | hb := List.mem_append.1 hb
      · obtain ⟨_, hne, hsize⟩ := wideBar_spec (Option.mem_toList.1 hb)
        obtain ⟨k, _, hk⟩ := hmask.size hne
        exact ⟨k, hsize.trans hk⟩
      · exact ih hb

theorem romBar_space (h : romBar r offset = some bar) : bar.space = .mem := by
  rw [romBar] at h
  split at h
  · cases h
  · obtain rfl := Option.some.inj h
    rfl

theorem romBar_spec (h : romBar r offset = some bar) :
    bar.offset = offset ∧ (r.rw &&& romMask).toNat ≠ 0 ∧
      bar.size = 2 ^ 32 - (r.rw &&& romMask).toNat := by
  rw [romBar] at h
  by_cases hm : r.rw &&& romMask = 0#32
  · rw [if_pos hm] at h
    exact absurd h (Option.some_ne_none bar).symm
  · rw [if_neg hm, Option.some.injEq] at h
    subst h
    exact ⟨rfl, fun hz => hm (BitVec.eq_of_toNat_eq hz), toNat_not_add_one hm⟩

theorem le_romOffset (ht : BitVec 8) : 0x30 ≤ romOffset ht := by
  rw [romOffset]
  split <;> decide

namespace Sized

/-- The walker finds the BARs of a function, unless one of them has 4 GiB or more. -/
theorem seen_eq_or (h : Sized c) :
    (seenBars c = (functionBars c).map (sizedAs c) ∧ ∀ bar ∈ functionBars c, bar.size < 2 ^ 32) ∨
      (∃ bar ∈ functionBars c, 2 ^ 32 ≤ bar.size) ∧ ∃ bar ∈ seenBars c, bar ∉ functionBars c := by
  have hnb := numBars_le (headerType c)
  have hrom := le_romOffset (headerType c)
  rw [seenBars, functionBars]
  obtain ⟨heq, hsmall⟩ | ⟨⟨huge, hmem, hsize⟩, wrong, hwrong, hlo, hhi, hne⟩ :=
    h.barSizes.seenRight (n := numBars (headerType c)) (m := numBars (headerType c)) hnb
      (Nat.le_add_left _ _) (Nat.le_add_left _ _)
  · have hsame : (romBar (c (dword (romOffset (headerType c)))) (romOffset (headerType c))).toList =
        (romBar (c (dword (romOffset (headerType c)))) (romOffset (headerType c))).toList.map
          (sizedAs c) := by
      cases hrb : romBar (c (dword (romOffset (headerType c)))) (romOffset (headerType c)) with
      | none => rfl
      | some bar =>
        have hmem : bar.space ≠ .io := by
          rw [romBar_space hrb]
          decide
        rw [Option.toList_some, List.map_singleton, sizedAs_of_ne hmem]
    refine .inl ⟨by rw [heq, List.map_append, ← hsame], fun bar hb => ?_⟩
    obtain hb | hb := List.mem_append.1 hb
    · exact hsmall bar hb
    · obtain ⟨_, hpos, hsize⟩ := romBar_spec (Option.mem_toList.1 hb)
      omega
  · refine .inr ⟨⟨huge, List.mem_append_left _ hmem, hsize⟩, wrong,
      List.mem_append_left _ hwrong, fun hb => ?_⟩
    obtain hb | hb := List.mem_append.1 hb
    · exact hne wrong hb rfl
    · have hoff := (romBar_spec (Option.mem_toList.1 hb)).1
      omega

theorem size_pow (h : Sized c) (hb : bar ∈ functionBars c) : ∃ k, bar.size = 2 ^ k := by
  obtain hb | hb := List.mem_append.1 hb
  · exact h.barSizes.size_pow hb
  · obtain ⟨_, hne, hsize⟩ := romBar_spec (Option.mem_toList.1 hb)
    obtain ⟨k, _, hk⟩ := h.romSize.size hne
    exact ⟨k, hsize.trans hk⟩

end Sized

/-- A card with an I/O BAR of 32 bytes that decodes 16 address bits. -/
def portCard : Config
  | 4 => ⟨0x1#32, 0xFFE0#32, 0#32⟩
  | _ => ⟨0#32, 0#32, 0#32⟩

example : functionBars portCard = [⟨0x10, .io, 32⟩] ∧
    seenBars portCard = [⟨0x10, .io, 0xFFFF0020⟩] := by decide

namespace Bus

/-- The functions on bus `b` and behind it, with the buses behind it numbered from `n` on in
preorder. -/
def functions : Nat → Nat → Bus → List (Loc × Config)
  | _, _, nil => []
  | b, n, cons dev fn c below rest =>
    (⟨BitVec.ofNat 8 b, dev, fn⟩, c) ::
      if isBridge c then below.functions n (n + 1) ++ rest.functions b (n + 1 + below.bridges)
      else rest.functions b n

/-- The ranges that are assigned on bus `b` and behind it to the `bars` of its functions, and the
allocators after that. -/
def allot (bars : Config → List Bar) : Nat → Nat → Bus → Alloc → List Range × Alloc
  | _, _, nil, a => ([], a)
  | b, n, cons dev fn c below rest, a =>
    let own := Pci.allot ⟨BitVec.ofNat 8 b, dev, fn⟩ (bars c) a
    if isBridge c then
      let inner := below.allot bars n (n + 1) own.2.pad
      let others := rest.allot bars b (n + 1 + below.bridges) (own.2.pad.padFrom inner.2)
      (own.1 ++ (inner.1 ++ others.1), others.2)
    else
      let others := rest.allot bars b n own.2
      (own.1 ++ others.1, others.2)

theorem functions_func (h : isBridge c = false) :
    (cons dev fn c below rest).functions b n =
      (⟨BitVec.ofNat 8 b, dev, fn⟩, c) :: rest.functions b n := by
  rw [functions, h, if_neg Bool.false_ne_true]

theorem functions_bridge (h : isBridge c = true) :
    (cons dev fn c below rest).functions b n = (⟨BitVec.ofNat 8 b, dev, fn⟩, c) ::
      (below.functions n (n + 1) ++ rest.functions b (n + 1 + below.bridges)) := by
  rw [functions, if_pos h]

end Bus

theorem Scans.locs_eq (h : Scans lo cur b s X X' s') (hb : b < 256) :
    (X.functions b s.next).map Prod.fst = X'.locs b := by
  induction h with
  | nil => rfl
  | func _ hbridge _ ih =>
    have hrec := ih hb
    rw [Walk.scan_next] at hrec
    rw [Bus.functions_func hbridge, Bus.locs_func ((entered_isBridge _ _ _ _ _).trans hbridge),
      List.map_cons, hrec]
  | @bridge lo cur dev fn c b s below below' s₁ rest rest' s' hplace hbridge hreset hle hbelow
      hrest ihb ihr =>
    obtain ⟨-, hsec, -⟩ := hbelow.numbers hreset hb hle
    have hnext := hbelow.next_eq
    rw [Walk.scan_next] at hnext
    have hrecb := ihb (by omega)
    have hrecr := ihr hb
    rw [Walk.scan_next] at hrecb hrecr
    rw [Bus.functions_bridge hbridge, Bus.locs_bridge ((closed_isBridge _ _ _ _ _ _).trans hbridge),
      List.map_cons, List.map_append, hrecb, hsec, ← hnext, hrecr]

/-- A scan assigns what the allocators give to the BARs that the walker finds. -/
theorem Scans.allot_eq (h : Scans lo cur b s X X' s')
    (hregs : ∀ f ∈ X.functions b s.next, PlainRegs f.2) :
    ranges s'.out = ranges s.out ++ (X.allot seenBars b s.next s.alloc).1 ∧
      s'.alloc = (X.allot seenBars b s.next s.alloc).2 := by
  induction h with
  | nil => exact ⟨(List.append_nil _).symm, rfl⟩
  | @func lo cur dev fn c b s rest rest' s' _ hbridge _ ih =>
    rw [Bus.functions_func hbridge] at hregs
    obtain ⟨hout, halloc⟩ := entered_assigned b dev fn c s (hregs _ List.mem_cons_self)
    rw [Walk.scan_next, Walk.scan_alloc, Walk.scan_out, hout, halloc] at ih
    obtain ⟨hout', halloc'⟩ := ih fun f hf => hregs f (List.mem_cons_of_mem _ hf)
    rw [Bus.allot, hbridge]
    exact ⟨by rw [hout', List.append_assoc]; rfl, halloc'⟩
  | @bridge lo cur dev fn c b s below below' s₁ rest rest' s' _ hbridge _ _ hbelow _ ihb ihr =>
    rw [Bus.functions_bridge hbridge] at hregs
    have hnext := hbelow.next_eq
    obtain ⟨hout, halloc⟩ := entered_assigned b dev fn c s (hregs _ List.mem_cons_self)
    rw [Walk.scan_next] at hnext
    rw [Walk.scan_next, Walk.scan_alloc, Walk.scan_out, opened_ranges, opened_alloc, hout,
      halloc] at ihb
    obtain ⟨hout₁, halloc₁⟩ := ihb fun f hf =>
      hregs f (List.mem_cons_of_mem _ (List.mem_append_left _ hf))
    rw [Walk.scan_next, Walk.scan_alloc, Walk.scan_out, closed_ranges, closed_alloc, opened_alloc,
      halloc, hout₁, halloc₁, hnext] at ihr
    obtain ⟨hout₂, halloc₂⟩ := ihr fun f hf =>
      hregs f (List.mem_cons_of_mem _ (List.mem_append_right _ hf))
    rw [Bus.allot, if_pos hbridge]
    exact ⟨by rw [hout₂, List.append_assoc, List.append_assoc]; rfl, halloc₂⟩

end Pegasos2.Pci
