import Pegasos2.PciStatus
import Pegasos2.PciTreeEntries

namespace Pegasos2.Pci
set_option autoImplicit true

theorem alignUp_not_add_one (v m : Word) : alignUp v (~~~m + 1#32) = (v + ~~~m) &&& m := by
  rw [alignUp, BitVec.add_sub_cancel, BitVec.not_not]

theorem BarReg.write_addr (h : BarReg r addrMask) (hv : v &&& addrMask = base)
    (hbase : base &&& (r.rw &&& addrMask) = base) : (r.write v).val &&& addrMask = base := by
  apply BitVec.eq_of_getLsbD_eq
  intro i hi
  have hfix : (r.val &&& ~~~r.rw &&& addrMask).getLsbD i = (0#32).getLsbD i := by rw [h.fixed]
  have hbit : (v &&& addrMask).getLsbD i = base.getLsbD i := by rw [hv]
  have hfit : (base &&& (r.rw &&& addrMask)).getLsbD i = base.getLsbD i := by rw [hbase]
  rw [BitVec.getLsbD_and, BitVec.getLsbD_and, BitVec.getLsbD_not, BitVec.getLsbD_zero,
    decide_eq_true hi, Bool.true_and] at hfix
  rw [BitVec.getLsbD_and] at hbit
  rw [BitVec.getLsbD_and, BitVec.getLsbD_and] at hfit
  rw [BitVec.getLsbD_and, Reg.getLsbD_write, h.w1c, BitVec.getLsbD_zero, Bool.false_and,
    Bool.not_false, Bool.and_true]
  cases hrw : r.rw.getLsbD i with
  | true => rw [if_pos rfl, hbit]
  | false =>
    rw [hrw, Bool.false_and, Bool.and_false] at hfit
    rw [hrw, Bool.not_false, Bool.and_true] at hfix
    rw [if_neg Bool.false_ne_true, hfix, hfit]

theorem BarReg.write_low (h : BarReg r addrMask)
    (hv : v &&& ~~~addrMask = r.val &&& ~~~addrMask) :
    (r.write v).val &&& ~~~addrMask = r.val &&& ~~~addrMask := by
  apply BitVec.eq_of_getLsbD_eq
  intro i hi
  have hbit : (v &&& ~~~addrMask).getLsbD i = (r.val &&& ~~~addrMask).getLsbD i := by rw [hv]
  rw [BitVec.getLsbD_and, BitVec.getLsbD_and] at hbit
  rw [BitVec.getLsbD_and, BitVec.getLsbD_and, Reg.getLsbD_write, h.w1c, BitVec.getLsbD_zero,
    Bool.false_and, Bool.not_false, Bool.and_true]
  split_ifs
  · exact hbit
  · rfl

/-- A base that fits the writable address bits is read back, and the other bits are kept. -/
theorem BarReg.write_base (h : BarReg r addrMask) (hbase : base &&& (r.rw &&& addrMask) = base) :
    (r.write ((r.val &&& ~~~addrMask) ||| base)).val &&& addrMask = base ∧
      (r.write ((r.val &&& ~~~addrMask) ||| base)).val &&& ~~~addrMask =
        r.val &&& ~~~addrMask := by
  have hin : base &&& addrMask = base := by
    rw [← hbase, BitVec.and_assoc, BitVec.and_assoc, BitVec.and_self]
  have hout : base &&& ~~~addrMask = 0#32 := by
    rw [← hin, BitVec.and_assoc, BitVec.and_not_self]
    exact BitVec.and_zero
  constructor
  · apply h.write_addr _ hbase
    rw [BitVec.and_or_distrib_right, hin, BitVec.and_assoc, BitVec.not_and_self]
    exact (congrArg (· ||| base) BitVec.and_zero).trans BitVec.zero_or
  · apply h.write_low
    rw [BitVec.and_or_distrib_right, hout, BitVec.and_assoc, BitVec.and_self, BitVec.or_zero]

theorem BarReg.write (h : BarReg r addrMask) (v : Word) : BarReg (r.write v) addrMask := by
  refine ⟨h.w1c, ?_⟩
  have hfixed := h.fixed
  apply BitVec.eq_of_getLsbD_eq
  intro i hi
  have hfix : (r.val &&& ~~~r.rw &&& addrMask).getLsbD i = (0#32).getLsbD i := by rw [hfixed]
  rw [BitVec.getLsbD_and, BitVec.getLsbD_and, BitVec.getLsbD_not] at hfix ⊢
  rw [Reg.write_rw, Reg.getLsbD_write, h.w1c, BitVec.getLsbD_zero, Bool.false_and, Bool.not_false,
    Bool.and_true]
  cases hrw : r.rw.getLsbD i with
  | true => rw [Bool.not_true, Bool.and_false, Bool.and_false, Bool.false_and]
  | false =>
    rw [hrw, BitVec.getLsbD_zero] at hfix
    rw [if_neg Bool.false_ne_true]
    exact hfix

theorem type_congr (h : v' &&& ~~~barAddrMask (isIo v) = v &&& ~~~barAddrMask (isIo v)) :
    isIo v' = isIo v ∧ wide v' = wide v := by
  have hone : ∀ io, ~~~barAddrMask io &&& 0x1#32 = 0x1#32 := by
    intro io
    cases io <;> decide
  have hbit : ∀ w : Word, w &&& 0x1#32 = w &&& ~~~barAddrMask (isIo v) &&& 0x1#32 := by
    intro w
    rw [BitVec.and_assoc, hone]
  have hio : isIo v' = isIo v := by rw [isIo, hbit, h, ← hbit, ← isIo]
  refine ⟨hio, ?_⟩
  cases hv : isIo v with
  | true =>
    have hno : ∀ w : Word, isIo w = true → wide w = false := by
      intro w hw
      cases hwide : wide w with
      | false => rfl
      | true => rw [wide_isIo hwide] at hw; exact absurd hw Bool.false_ne_true
    rw [hno v hv, hno v' (hio.trans hv)]
  | false =>
    rw [hv] at h
    have htype : ∀ w : Word, w &&& 0x6#32 = w &&& ~~~barAddrMask false &&& 0x6#32 := by
      intro w
      rw [BitVec.and_assoc, show ~~~barAddrMask false &&& 0x6#32 = 0x6#32 from by decide]
    rw [wide, wide, htype v', h, ← htype v, hbit v', hv, h, ← hv, ← hbit v]

theorem BarReg.treeProbe_size (h : BarReg r (barAddrMask (isIo r.val))) :
    (treeProbe r).size = ~~~(r.rw &&& barAddrMask (isIo r.val)) + 1#32 := by
  rw [treeProbe]
  split_ifs with hset
  · have hone : 0#32 = ~~~0#32 + 1#32 := by decide
    rw [← h.mask, hset, BitVec.zero_and]
    exact hone
  · rw [h.mask]

theorem BarReg.heldIn_absent (loc : Loc) (h : BarReg r (barAddrMask (isIo r.val)))
    (hm : r.rw &&& barAddrMask (isIo r.val) = 0#32) (i : Nat) : heldIn loc r i = none := by
  rw [heldIn, h.treeProbe_size, hm]
  exact if_pos (by decide)

theorem BarReg.heldIn_written (loc : Loc) (h : BarReg r (barAddrMask (isIo r.val)))
    (hm : r.rw &&& barAddrMask (isIo r.val) ≠ 0#32)
    (hbase : base &&& (r.rw &&& barAddrMask (isIo r.val)) = base) (i : Nat) :
    heldIn loc (r.write ((r.val &&& ~~~barAddrMask (isIo r.val)) ||| base)) i =
      some ⟨loc, 0x10 + i * 4,
        barSpace (isIo r.val) (r.val &&& ~~~barAddrMask (isIo r.val)), wide r.val,
        ~~~(r.rw &&& barAddrMask (isIo r.val)) + 1#32, base⟩ := by
  obtain ⟨haddr, hlow⟩ := h.write_base hbase
  obtain ⟨hio, hwide⟩ := type_congr hlow
  have hwritten := h.write ((r.val &&& ~~~barAddrMask (isIo r.val)) ||| base)
  generalize hr' : r.write ((r.val &&& ~~~barAddrMask (isIo r.val)) ||| base) = r' at *
  have hrw : r'.rw = r.rw := by rw [← hr', Reg.write_rw]
  rw [← hio] at hwritten
  have hsize := hwritten.treeProbe_size
  rw [hio, hrw] at hsize
  have hne : (treeProbe r').size ≠ 0#32 := by
    rw [hsize]
    exact not_add_one_eq_zero hm
  rw [heldIn, if_neg hne, treeProbe_flags hne, hio, hwide, hsize, haddr, hlow]

/-- `w'` comes from `w` by writes to registers and by lines at the end of the report. -/
structure Follows (w w' : Walk Config) : Prop where
  out : ∃ more, w'.out = w.out ++ more
  w1c : ∀ k, (w'.cfg k).w1c = (w.cfg k).w1c

theorem Config.write_w1c (c : Config) (k : Nat) (v : Word) (j : Nat) :
    (c.write k v j).w1c = (c j).w1c := by
  by_cases h : j = k
  · rw [h, Config.write_same, Reg.write_w1c]
  · rw [Config.write_ne c v h]

namespace Follows

theorem refl (w : Walk Config) : Follows w w := ⟨⟨[], (List.append_nil _).symm⟩, fun _ => rfl⟩

theorem trans (h : Follows w w₁) (h' : Follows w₁ w₂) : Follows w w₂ := by
  obtain ⟨more, hout⟩ := h.out
  obtain ⟨more', hout'⟩ := h'.out
  refine ⟨⟨more ++ more', ?_⟩, fun k => (h'.w1c k).trans (h.w1c k)⟩
  rw [hout', hout, List.append_assoc]

theorem assignments (h : Follows w w') :
    ∃ l, assignments w'.out = Pci.assignments w.out ++ l := by
  obtain ⟨more, hout⟩ := h.out
  exact ⟨Pci.assignments more, by rw [hout, assignments_append]⟩

variable (loc : Loc)

theorem probe (w : Walk Config) (offset : Nat) (m : Word) :
    Follows w { w with cfg := (pciBarProbe funcAccess w.cfg offset m).2 } := by
  refine ⟨⟨[], (List.append_nil _).symm⟩, fun k => ?_⟩
  have hcfg : (pciBarProbe funcAccess w.cfg offset m).2 =
      funcAccess.write32 (funcAccess.write32 w.cfg offset
        ((funcAccess.read32 w.cfg offset &&& ~~~m) ||| m)) offset
        (funcAccess.read32 w.cfg offset) := by
    simp only [pciBarProbe, apply_ite Prod.snd, ite_self]
  dsimp only
  rw [hcfg]
  exact (Config.write_w1c _ _ _ k).trans (Config.write_w1c _ _ _ k)

theorem assign (b : Bars Config) :
    Follows b.walk (assign funcAccess loc offset space p value b).walk := by
  simp only [Pci.assign]
  refine ⟨⟨_, rfl⟩, fun k => ?_⟩
  dsimp only
  split_ifs
  · exact (Config.write_w1c _ _ _ k).trans (Config.write_w1c _ _ _ k)
  · exact Config.write_w1c _ _ _ k

theorem barStep (b : Bars Config) : Follows b.walk (barStep funcAccess loc i b).1.walk := by
  simp only [Pci.barStep]
  split_ifs
  · exact probe b.walk _ _
  · exact (probe b.walk _ _).trans (assign loc ⟨_, _⟩)

theorem barLoop (nb n i : Nat) (b : Bars Config) :
    Follows b.walk (barLoop funcAccess loc nb n i b).walk := by
  induction n generalizing i b with
  | zero => exact refl _
  | succ n ih =>
    rw [Pci.barLoop]
    split_ifs
    · exact (barStep loc b).trans (ih _ _)
    · exact refl _

theorem romStep (b : Bars Config) : Follows b.walk (romStep funcAccess loc offset b).walk := by
  simp only [Pci.romStep]
  split_ifs
  · exact probe b.walk _ _
  · exact (probe b.walk _ _).trans (assign loc ⟨_, _⟩)

theorem report (w : Walk Config) (x : Line) : Follows w { w with out := w.out ++ [x] } :=
  ⟨⟨[x], rfl⟩, fun _ => rfl⟩

theorem enterFunction (h : Header) (w : Walk Config) :
    Follows w (enterFunction funcAccess loc h w) := by
  have hprobe : ∀ w' : Walk Config, Follows w'
      (probeAssignAndPrintBars funcAccess loc h.headerType w').walk :=
    fun w' => (barLoop loc _ _ _ ⟨w', 0#16⟩).trans (romStep loc _)
  have hstart := (report w (.device loc h.vendor h.device h.cls h.headerType)).trans (hprobe _)
  simp only [Pci.enterFunction]
  split_ifs
  · exact hstart
  · exact hstart.trans ⟨⟨_, rfl⟩, fun k => Config.write_w1c _ _ _ k⟩

end Follows

/-- What the walker writes to slot `i` for a base. -/
def written (r : Reg) (base : Word) : Reg :=
  r.write ((r.val &&& ~~~barAddrMask (isIo r.val)) ||| base)

/-- The base that the walker takes for the register in slot `i`. -/
def slotBase (r : Reg) (a : Alloc) : Word :=
  alignUp (a.next (barSpace (isIo r.val) (r.val &&& ~~~barAddrMask (isIo r.val))))
    (~~~(r.rw &&& barAddrMask (isIo r.val)) + 1#32)

theorem slotBase_fits (r : Reg) (a : Alloc) :
    slotBase r a &&& (r.rw &&& barAddrMask (isIo r.val)) = slotBase r a := by
  rw [slotBase, alignUp_not_add_one, BitVec.and_assoc, BitVec.and_self]

section Loop

variable {loc : Loc} {c : Config}

theorem barStep_unimplemented (b : Bars Config) (hi : i < 6) (hcfg : b.walk.cfg (4 + i) = r)
    (hr : BarReg r (barAddrMask (isIo r.val)))
    (hm : r.rw &&& barAddrMask (isIo r.val) = 0#32) :
    barStep funcAccess loc i b = (b, i + 1) := by
  have hd : dword (0x10 + i * 4) = 4 + i := dword_slot hi
  have hprobe : pciBarProbe funcAccess b.walk.cfg (0x10 + i * 4) (barAddrMask (isIo r.val)) =
      (probeOf r (barAddrMask (isIo r.val)), b.walk.cfg) := by
    rw [pciBarProbe_eq _ (by rw [hd, hcfg]; exact hr), hd, hcfg]
  have hio : (funcAccess.read32 b.walk.cfg (0x10 + i * 4) &&& 0x1#32 != 0#32) = isIo r.val := by
    rw [read_isIo _ hi, hcfg]
  simp only [barStep, hio, hprobe]
  rw [probeOf, if_pos hm]
  rfl

theorem barStep_implemented (loc : Loc) (b : Bars Config) (hi : i < 6)
    (hcfg : b.walk.cfg (4 + i) = r) (hr : BarReg r (barAddrMask (isIo r.val)))
    (hm : r.rw &&& barAddrMask (isIo r.val) ≠ 0#32) :
    assignments (barStep funcAccess loc i b).1.walk.out = assignments b.walk.out ++
        [⟨loc, 0x10 + i * 4, barSpace (isIo r.val) (r.val &&& ~~~barAddrMask (isIo r.val)),
          wide r.val, ~~~(r.rw &&& barAddrMask (isIo r.val)) + 1#32,
          slotBase r b.walk.alloc⟩] ∧
      (barStep funcAccess loc i b).2 = heldNext r i ∧
      (barStep funcAccess loc i b).1.walk.cfg (4 + i) = written r (slotBase r b.walk.alloc) ∧
      (wide r.val = true → (barStep funcAccess loc i b).1.walk.cfg (4 + (i + 1)) =
        (b.walk.cfg (4 + (i + 1))).write 0#32) := by
  have hd : dword (0x10 + i * 4) = 4 + i := dword_slot hi
  have hd' : dword (0x10 + i * 4 + 4) = 4 + (i + 1) := by
    rw [dword]
    omega
  have hprobe : pciBarProbe funcAccess b.walk.cfg (0x10 + i * 4) (barAddrMask (isIo r.val)) =
      (probeOf r (barAddrMask (isIo r.val)), b.walk.cfg) := by
    rw [pciBarProbe_eq _ (by rw [hd, hcfg]; exact hr), hd, hcfg]
  have hio : (funcAccess.read32 b.walk.cfg (0x10 + i * 4) &&& 0x1#32 != 0#32) = isIo r.val := by
    rw [read_isIo _ hi, hcfg]
  have hlow : r.val &&& ~~~barAddrMask (isIo r.val) &&& ~~~barAddrMask (isIo r.val) =
      r.val &&& ~~~barAddrMask (isIo r.val) := by
    rw [BitVec.and_assoc, BitVec.and_self]
  simp only [barStep, hio, hprobe]
  rw [probeOf, if_neg hm, if_neg (not_add_one_eq_zero hm)]
  have hbase : alignUp (b.walk.alloc.next
      (barSpace (isIo r.val) (r.val &&& ~~~barAddrMask (isIo r.val))))
      (~~~(r.rw &&& barAddrMask (isIo r.val)) + 1#32) = slotBase r b.walk.alloc := rfl
  simp only [assign, hlow, funcAccess, hd, hd', hbase]
  refine ⟨assignments_append _ _, rfl, ?_, ?_⟩
  · split_ifs
    · rw [Config.write_ne _ _ (by omega), Config.write_same, hcfg]
      rfl
    · rw [Config.write_same, hcfg]
      rfl
  · intro hwide
    rw [hwide, if_pos rfl, Config.write_same, Config.write_ne _ _ (by omega)]

theorem barStep_keeps (b : Bars Config) (hi : i < 6) (hk : k < 4 + i) :
    (barStep funcAccess loc i b).1.walk.cfg k = b.walk.cfg k := by
  have htouch : Touches [4 + i, 4 + (i + 1)] b.walk.cfg
      (barStep funcAccess loc i b).1.walk.cfg := by
    apply barStep_touches b
    · rw [dword_slot hi]
      exact List.mem_cons_self
    · rw [show dword (0x10 + i * 4 + 4) = 4 + (i + 1) by rw [dword]; omega]
      exact List.mem_cons_of_mem _ List.mem_cons_self
  apply htouch.frame
  simp only [List.mem_cons, List.not_mem_nil, or_false, not_or]
  omega

theorem barStep_next (loc : Loc) (b : Bars Config) : i < (barStep funcAccess loc i b).2 := by
  simp only [barStep]
  split_ifs <;> omega

/-- The loop from slot `i` on leaves the registers below alone. -/
theorem barLoop_keeps (loc : Loc) (n i : Nat) (b : Bars Config) (hk : k < 4 + i) :
    (barLoop funcAccess loc 6 n i b).walk.cfg k = b.walk.cfg k := by
  induction n generalizing i b with
  | zero => rfl
  | succ n ih =>
    rw [barLoop]
    split_ifs with hi
    · have hnext := barStep_next (i := i) loc b
      dsimp only
      rw [ih _ _ (by omega), barStep_keeps b hi hk]
    · rfl

/-- The slots from `i` on hold BARs as the bus allows them: a 64-bit BAR takes two slots, and
its size is a power of two. -/
inductive LegalFrom (c : Config) : Nat → Prop
  | done (hi : 6 ≤ i) : LegalFrom c i
  | narrow (hi : i < 6) (hwide : wide (c (4 + i)).val = false) (hrest : LegalFrom c (i + 1)) :
      LegalFrom c i
  | wide (hi : i + 1 < 6) (hwide : wide (c (4 + i)).val = true)
      (hmask : PowMask 64 (wideMask c i)) (hrest : LegalFrom c (i + 2)) : LegalFrom c i

/-- The upper halves of the 64-bit BARs among `l` are zero. -/
def HighZero (c : Config) (l : List Assignment) : Prop :=
  ∀ a ∈ l, a.is64 = true → (c (dword a.offset + 1)).val = 0#32

/-- The ranges `l` that the walker has reported for the slots from `i` on are what the registers
`c'` hold, or there is a BAR of 4 GiB or more, and the walker takes its upper half for a BAR. -/
def Tracked (loc : Loc) (c c' : Config) (i n m k : Nat) (l : List Assignment) : Prop :=
  ((∀ bar ∈ barsFrom c 6 m i, bar.size < 2 ^ 32) ∧ l = heldFrom loc c' k i ∧ HighZero c' l) ∨
    ((∃ bar ∈ barsFrom c 6 m i, 2 ^ 32 ≤ bar.size) ∧ ∃ bar ∈ seenFrom c 6 n i,
      0x10 + i * 4 ≤ bar.offset ∧ ∀ a ∈ heldFrom loc c' k i, a.offset ≠ bar.offset)

theorem Tracked.cons {c' : Config} {l₀ : List Bar} {l : List Assignment}
    (h : Tracked loc c c' j n m k l') (hij : i < j)
    (hheld : heldFrom loc c' k' i = l ++ heldFrom loc c' k j)
    (hbars : barsFrom c 6 m' i = l₀ ++ barsFrom c 6 m j)
    (hseen : ∀ bar ∈ seenFrom c 6 n j, bar ∈ seenFrom c 6 n' i)
    (hl : ∀ a ∈ l, a.offset = 0x10 + i * 4) (hzero : HighZero c' l)
    (hl₀ : ∀ bar ∈ l₀, bar.size < 2 ^ 32) : Tracked loc c c' i n' m' k' (l ++ l') := by
  rw [Tracked, hheld, hbars]
  obtain ⟨hsmall, heq, hhigh⟩ | ⟨⟨huge, hmem, hsize⟩, wrong, hwrong, hlo, hne⟩ := h
  · refine .inl ⟨fun bar hb => ?_, by rw [heq], fun a ha => ?_⟩
    · exact (List.mem_append.1 hb).elim (hl₀ bar) (hsmall bar)
    · exact (List.mem_append.1 ha).elim (hzero a) (hhigh a)
  · refine .inr ⟨⟨huge, List.mem_append_right _ hmem, hsize⟩, wrong, hseen wrong hwrong,
      by omega, fun a ha => ?_⟩
    obtain ha | ha := List.mem_append.1 ha
    · have hoff := hl a ha
      omega
    · exact hne a ha

theorem slotNext_implemented (hm : r.rw &&& barAddrMask (isIo r.val) ≠ 0#32) (i : Nat) :
    slotNext r i = heldNext r i := by
  rw [slotNext, heldNext]
  simp only [hm, ne_eq, not_false_eq_true, true_and]

theorem heldFrom_written {c' : Config} (hi : i < 6) (hr : BarReg r (barAddrMask (isIo r.val)))
    (hm : r.rw &&& barAddrMask (isIo r.val) ≠ 0#32) (a : Alloc)
    (hc' : c' (4 + i) = written r (slotBase r a)) :
    heldFrom loc c' (k + 1) i = [⟨loc, 0x10 + i * 4,
      barSpace (isIo r.val) (r.val &&& ~~~barAddrMask (isIo r.val)), wide r.val,
      ~~~(r.rw &&& barAddrMask (isIo r.val)) + 1#32, slotBase r a⟩] ++
      heldFrom loc c' k (heldNext r i) := by
  obtain ⟨-, hlow⟩ := hr.write_base (slotBase_fits r a)
  have hnext : heldNext (written r (slotBase r a)) i = heldNext r i := by
    rw [heldNext, heldNext, written, (type_congr hlow).2]
  rw [heldFrom, if_pos hi, hc', hnext, written, hr.heldIn_written loc hm (slotBase_fits r a)]
  rfl

theorem heldFrom_unimplemented (loc : Loc) {c' : Config} (hi : i < 6)
    (hr : BarReg r (barAddrMask (isIo r.val))) (hm : r.rw &&& barAddrMask (isIo r.val) = 0#32)
    (hc' : c' (4 + i) = r) :
    heldFrom loc c' (k + 1) i = [] ++ heldFrom loc c' k (heldNext r i) := by
  rw [heldFrom, if_pos hi, hc', hr.heldIn_absent loc hm]
  rfl

theorem wideMask_upper (hk : wideMask c i = 2 ^ 64 - 2 ^ k) (hlt : k < 32) :
    (c (4 + (i + 1))).rw = BitVec.allOnes 32 := by
  have hlow := ((c (4 + i)).rw &&& barAddrMask false).isLt
  have hhigh := (c (4 + (i + 1))).rw.isLt
  have hpow : 2 ^ k < 2 ^ 32 := Nat.pow_lt_pow_right (by decide) hlt
  have hpos := Nat.two_pow_pos k
  rw [wideMask] at hk
  apply BitVec.eq_of_toNat_eq
  rw [BitVec.toNat_allOnes]
  omega

theorem write_zero {r : Reg} (h : r.rw = BitVec.allOnes 32) : (r.write 0#32).val = 0#32 := by
  apply BitVec.eq_of_getLsbD_eq
  intro i hi
  rw [Reg.getLsbD_write, h, BitVec.getLsbD_allOnes, decide_eq_true hi, if_pos rfl]

/-- The loop at a slot with address bits, the loop over the slots behind it being known. -/
theorem tracked_implemented {b : Bars Config} (hi : i < 6)
    (hr : BarReg (c (4 + i)) (barAddrMask (isIo (c (4 + i)).val)))
    (hm : (c (4 + i)).rw &&& barAddrMask (isIo (c (4 + i)).val) ≠ 0#32)
    (hcfg : ∀ j, 4 + i ≤ j → b.walk.cfg j = c j)
    (hbars : barsFrom c 6 (m + 1) i = l₀ ++ barsFrom c 6 m (heldNext (c (4 + i)) i))
    (hl₀ : ∀ bar ∈ l₀, bar.size < 2 ^ 32)
    (hupper : wide (c (4 + i)).val = true → (c (4 + (i + 1))).rw = BitVec.allOnes 32)
    (ih : ∃ l, assignments (barLoop funcAccess loc 6 n (heldNext (c (4 + i)) i)
        (barStep funcAccess loc i b).1).walk.out =
          assignments (barStep funcAccess loc i b).1.walk.out ++ l ∧
      Tracked loc c (barLoop funcAccess loc 6 n (heldNext (c (4 + i)) i)
        (barStep funcAccess loc i b).1).walk.cfg (heldNext (c (4 + i)) i) n m k l) :
    ∃ l, assignments (barLoop funcAccess loc 6 (n + 1) i b).walk.out =
        assignments b.walk.out ++ l ∧
      Tracked loc c (barLoop funcAccess loc 6 (n + 1) i b).walk.cfg i (n + 1) (m + 1) (k + 1)
        l := by
  have hlt := le_heldNext (c (4 + i)) i
  obtain ⟨hout, hnext, hlow, hhigh⟩ :=
    barStep_implemented loc b hi (hcfg (4 + i) (Nat.le_refl _)) hr hm
  rw [barLoop, if_pos hi]
  dsimp only
  rw [hnext]
  generalize (barStep funcAccess loc i b).1 = b₁ at hout hlow hhigh ih ⊢
  have hkeep (j : Nat) (hj : j < 4 + heldNext (c (4 + i)) i) :=
    barLoop_keeps loc n (heldNext (c (4 + i)) i) b₁ hj
  generalize barLoop funcAccess loc 6 n (heldNext (c (4 + i)) i) b₁ = b' at hkeep ih ⊢
  obtain ⟨l, hl, htracked⟩ := ih
  refine ⟨_, by rw [hl, hout, List.append_assoc], htracked.cons (by omega)
    (heldFrom_written hi hr hm b.walk.alloc ((hkeep _ (by omega)).trans hlow)) hbars
    (fun bar hb => ?_) (fun a ha => ?_) (fun a ha h64 => ?_) hl₀⟩
  · rw [seenFrom, if_pos hi, slotNext_implemented hm]
    exact List.mem_append_right _ hb
  · rw [List.mem_singleton.1 ha]
  · have hwide : wide (c (4 + i)).val = true := by
      rw [List.mem_singleton.1 ha] at h64
      exact h64
    have hnext' : heldNext (c (4 + i)) i = i + 2 := if_pos hwide
    have hd : dword a.offset + 1 = 4 + (i + 1) := by
      rw [List.mem_singleton.1 ha, dword_slot hi, Nat.add_assoc]
    rw [hd, hkeep _ (by omega), hhigh hwide, hcfg _ (by omega), write_zero (hupper hwide)]

theorem tracked_unimplemented {b : Bars Config} (hi : i < 6)
    (hr : BarReg (c (4 + i)) (barAddrMask (isIo (c (4 + i)).val)))
    (hm : (c (4 + i)).rw &&& barAddrMask (isIo (c (4 + i)).val) = 0#32)
    (hcfg : b.walk.cfg (4 + i) = c (4 + i))
    (hbars : barsFrom c 6 (m + 1) i = [] ++ barsFrom c 6 m j) (hj : heldNext (c (4 + i)) i = j)
    (hseen : ∀ bar ∈ seenFrom c 6 n j, bar ∈ seenFrom c 6 (n' + 1) i)
    (hloop : barLoop funcAccess loc 6 n' (i + 1) b = barLoop funcAccess loc 6 n j b)
    (ih : ∃ l, assignments (barLoop funcAccess loc 6 n j b).walk.out =
        assignments b.walk.out ++ l ∧
      Tracked loc c (barLoop funcAccess loc 6 n j b).walk.cfg j n m k l) :
    ∃ l, assignments (barLoop funcAccess loc 6 (n' + 1) i b).walk.out =
        assignments b.walk.out ++ l ∧
      Tracked loc c (barLoop funcAccess loc 6 (n' + 1) i b).walk.cfg i (n' + 1) (m + 1) (k + 1)
        l := by
  have hlt := le_heldNext (c (4 + i)) i
  rw [barLoop, if_pos hi, barStep_unimplemented b hi hcfg hr hm]
  dsimp only
  rw [hloop]
  have hkeep := barLoop_keeps loc n j b (show 4 + i < 4 + j by omega)
  generalize barLoop funcAccess loc 6 n j b = b' at hkeep ih ⊢
  obtain ⟨l, hl, htracked⟩ := ih
  have hheld := heldFrom_unimplemented (k := k) loc hi hr hm (hkeep.trans hcfg)
  rw [hj] at hheld
  exact ⟨l, hl, htracked.cons (by omega) hheld hbars hseen
    (fun a ha => absurd ha List.not_mem_nil) (fun a ha => absurd ha List.not_mem_nil)
    (fun bar hb => absurd hb List.not_mem_nil)⟩

theorem wideMask_zero (h : wideMask c i = 0) (hwide : wide (c (4 + i)).val = true) :
    (c (4 + i)).rw &&& barAddrMask (isIo (c (4 + i)).val) = 0#32 ∧
      (c (4 + (i + 1))).rw = 0#32 := by
  rw [wideMask, Nat.add_eq_zero_iff, Nat.mul_eq_zero] at h
  refine ⟨?_, BitVec.eq_of_toNat_eq (h.1.resolve_right (by decide))⟩
  rw [wide_isIo hwide]
  exact BitVec.eq_of_toNat_eq h.2

theorem wideMask_huge (hk : wideMask c i = 2 ^ 64 - 2 ^ k) (hlt : k < 64) (hge : 32 ≤ k)
    (hwide : wide (c (4 + i)).val = true) :
    (c (4 + i)).rw &&& barAddrMask (isIo (c (4 + i)).val) = 0#32 := by
  have hlow := ((c (4 + i)).rw &&& barAddrMask false).isLt
  have hpow : 2 ^ k = 2 ^ (k - 32) * 2 ^ 32 := by rw [← Nat.pow_add, Nat.sub_add_cancel hge]
  have hle : 2 ^ (k - 32) ≤ 2 ^ 31 := Nat.pow_le_pow_right (by decide) (by omega)
  rw [wideMask, hpow] at hk
  rw [wide_isIo hwide]
  refine BitVec.eq_of_toNat_eq ?_
  simp only [BitVec.toNat_ofNat]
  omega

/-- The loop at a 64-bit BAR of 4 GiB or more, whose lower half has no address bits. -/
theorem tracked_huge {b : Bars Config} (hi : i + 1 < 6)
    (hr : BarReg (c (4 + i)) (barAddrMask (isIo (c (4 + i)).val)))
    (hpow : wideMask c i = 2 ^ 64 - 2 ^ e) (he : e < 64) (hge : 32 ≤ e)
    (hwide : wide (c (4 + i)).val = true) (hcfg : b.walk.cfg (4 + i) = c (4 + i)) :
    ∃ l, assignments (barLoop funcAccess loc 6 (n + 2) i b).walk.out =
        assignments b.walk.out ++ l ∧
      Tracked loc c (barLoop funcAccess loc 6 (n + 2) i b).walk.cfg i (n + 2) (m + 1) k l := by
  have hi' : i < 6 := by omega
  obtain ⟨l, hl⟩ := (Follows.barLoop loc 6 (n + 2) i b).assignments
  have hkeep : (barLoop funcAccess loc 6 (n + 2) i b).walk.cfg (4 + i) = c (4 + i) := by
    rw [barLoop, if_pos hi', barStep_unimplemented b hi' hcfg hr (wideMask_huge hpow he hge hwide)]
    dsimp only
    rw [barLoop_keeps _ _ _ _ (by omega), hcfg]
  generalize barLoop funcAccess loc 6 (n + 2) i b = b' at hl hkeep ⊢
  obtain ⟨wrong, hwrong, hoff⟩ := seenFrom_huge (n := n) hi hpow he hge hwide
  have hlarge : 2 ^ 32 ≤ 2 ^ e := Nat.pow_le_pow_right (by decide) hge
  have hlt : 2 ^ e < 2 ^ 64 := Nat.pow_lt_pow_right (by decide) he
  have hne : wideMask c i ≠ 0 := by omega
  have hbar : wideBar c i = some _ := if_neg hne
  have hhuge : ∃ bar ∈ barsFrom c 6 (m + 1) i, 2 ^ 32 ≤ bar.size := by
    rw [barsFrom, if_pos hi', if_pos hwide, hbar]
    refine ⟨_, List.mem_append_left _ (List.mem_singleton_self _), ?_⟩
    dsimp only
    omega
  refine ⟨l, hl, .inr ⟨hhuge, wrong, hwrong, by omega, fun a ha => ?_⟩⟩
  cases k with
  | zero => exact absurd ha List.not_mem_nil
  | succ k =>
    rw [heldFrom, if_pos hi', hkeep, heldNext, if_pos hwide] at ha
    obtain ha | ha := List.mem_append.1 ha
    · have hoff' := congrArg Assignment.offset (heldIn_spec (Option.mem_toList.1 ha)).2
      dsimp only at hoff'
      omega
    · obtain ⟨j, hle, -, hoff'⟩ := (heldFrom_held loc b'.walk.cfg k (i + 2)).offset ha
      omega

theorem barLoop_tracked (loc : Loc) (hregs : BarRegs c 6) (h : LegalFrom c i) (hn : 6 ≤ i + n)
    (hm : 6 ≤ i + m) (hk : 6 ≤ i + k) (b : Bars Config)
    (hcfg : ∀ j, 4 + i ≤ j → b.walk.cfg j = c j) :
    ∃ l, assignments (barLoop funcAccess loc 6 n i b).walk.out = assignments b.walk.out ++ l ∧
      Tracked loc c (barLoop funcAccess loc 6 n i b).walk.cfg i n m k l := by
  induction h generalizing n m k b with
  | @done i hi =>
    have hloop : barLoop funcAccess loc 6 n i b = b := by
      cases n with
      | zero => rfl
      | succ n => rw [barLoop, if_neg (Nat.not_lt.2 hi)]
    rw [hloop]
    refine ⟨[], (List.append_nil _).symm, .inl ⟨fun bar hb => ?_, ?_, fun a ha => ?_⟩⟩
    · rw [barsFrom_of_le hi] at hb
      exact absurd hb List.not_mem_nil
    · rw [heldFrom_of_le loc _ k hi]
    · exact absurd ha List.not_mem_nil
  | @narrow i hi hwide hrest ih =>
    obtain ⟨n, rfl⟩ : ∃ n', n = n' + 1 := ⟨n - 1, by omega⟩
    obtain ⟨m, rfl⟩ : ∃ m', m = m' + 1 := ⟨m - 1, by omega⟩
    obtain ⟨k, rfl⟩ : ∃ k', k = k' + 1 := ⟨k - 1, by omega⟩
    have hr := hregs i hi
    have hnot : ¬ wide (c (4 + i)).val = true := by rw [hwide]; exact Bool.false_ne_true
    have hnext : heldNext (c (4 + i)) i = i + 1 := if_neg hnot
    have hbars : barsFrom c 6 (m + 1) i =
        (narrowBar (c (4 + i)) i).toList ++ barsFrom c 6 m (i + 1) := by
      rw [barsFrom, if_pos hi, if_neg hnot]
    by_cases hmask : (c (4 + i)).rw &&& barAddrMask (isIo (c (4 + i)).val) = 0#32
    · have hbar : narrowBar (c (4 + i)) i = none := if_pos hmask
      have hslot : slotNext (c (4 + i)) i = i + 1 := if_neg fun h => h.1 hmask
      rw [hbar] at hbars
      refine tracked_unimplemented hi hr hmask (hcfg _ (Nat.le_refl _)) hbars hnext
        (fun bar hb => ?_) rfl
        (ih (by omega) (by omega) (by omega) b fun j hj => hcfg j (by omega))
      rw [seenFrom, if_pos hi, hslot]
      exact List.mem_append_right _ hb
    · have hkeep := (barStep_assigned loc b hi hr (hcfg _ (Nat.le_refl _))).2.2
      rw [slotNext_implemented hmask, hnext] at hkeep
      refine tracked_implemented hi hr hmask hcfg (by rw [hnext]; exact hbars)
        (fun bar hb => narrowBar_small (Option.mem_toList.1 hb)) (fun h => absurd h hnot) ?_
      rw [hnext]
      exact ih (by omega) (by omega) (by omega) _ fun j hj => (hkeep j hj).trans (hcfg j (by omega))
  | @wide i hi hwide hmask hrest ih =>
    obtain ⟨n, rfl⟩ : ∃ n', n = n' + 2 := ⟨n - 2, by omega⟩
    obtain ⟨m, rfl⟩ : ∃ m', m = m' + 1 := ⟨m - 1, by omega⟩
    obtain ⟨k, rfl⟩ : ∃ k', k = k' + 1 := ⟨k - 1, by omega⟩
    have hi' : i < 6 := by omega
    have hr := hregs i hi'
    have hnext : heldNext (c (4 + i)) i = i + 2 := if_pos hwide
    have hbars : barsFrom c 6 (m + 1) i = (wideBar c i).toList ++ barsFrom c 6 m (i + 2) := by
      rw [barsFrom, if_pos hi', if_pos hwide]
    obtain hzero | ⟨e, he, hpow⟩ := hmask
    · obtain ⟨hlow, hhigh⟩ := wideMask_zero hzero hwide
      have hbar : wideBar c i = none := if_pos hzero
      have hmask' : (c (4 + (i + 1))).rw &&& barAddrMask (isIo (c (4 + (i + 1))).val) = 0#32 := by
        rw [hhigh, BitVec.zero_and]
      have hloop : barLoop funcAccess loc 6 (n + 1) (i + 1) b =
          barLoop funcAccess loc 6 n (i + 2) b := by
        rw [barLoop, if_pos hi,
          barStep_unimplemented b hi (hcfg _ (by omega)) (hregs _ hi) hmask']
      rw [hbar] at hbars
      exact tracked_unimplemented hi' hr hlow (hcfg _ (Nat.le_refl _)) hbars hnext
        (fun bar hb => by rw [seenFrom_unimplemented hi hzero hwide]; exact hb) hloop
        (ih (by omega) (by omega) (by omega) b fun j hj => hcfg j (by omega))
    · by_cases hsmall : e < 32
      · obtain ⟨hbar, hslot⟩ := slotBar_eq_wideBar hwide hpow hsmall
        have himpl : (c (4 + i)).rw &&& barAddrMask (isIo (c (4 + i)).val) ≠ 0#32 := by
          intro hz
          have hslot' : slotNext (c (4 + i)) i = i + 1 := if_neg fun h => h.1 hz
          omega
        have hkeep := (barStep_assigned loc b hi' hr (hcfg _ (Nat.le_refl _))).2.2
        rw [hslot] at hkeep
        refine tracked_implemented hi' hr himpl hcfg (by rw [hnext]; exact hbars)
          (fun bar hb => ?_) (fun _ => wideMask_upper hpow hsmall) ?_
        · rw [← hbar] at hb
          obtain ⟨-, hne, hsize⟩ := slotBar_spec (Option.mem_toList.1 hb)
          omega
        rw [hnext]
        exact ih (by omega) (by omega) (by omega) _
          fun j hj => (hkeep j hj).trans (hcfg j (by omega))
      · exact tracked_huge hi hr hpow he (by omega) hwide (hcfg _ (Nat.le_refl _))

end Loop

end Pegasos2.Pci
