import Pegasos2.PciBars

namespace Pegasos2.Pci
set_option autoImplicit true

/-- The upper half of a dword: STATUS in dword 1, SECONDARY STATUS in dword 7 of a bridge. -/
def upper (r : Reg) : BitVec 16 := halfOf r.val 1

/-- The bits of the upper half that are cleared by writing them back. -/
def clears (r : Reg) : BitVec 16 := halfOf (r.w1c &&& ~~~r.rw) 1

theorem halfOf_setByte (v : Word) (b : BitVec 8) (hk : k < 2) :
    halfOf (setByte v k b) 1 = halfOf v 1 := by
  apply BitVec.eq_of_getLsbD_eq
  intro i hi
  rw [getLsbD_halfOf, getLsbD_halfOf, getLsbD_setByte _ _ (by omega), if_neg (by omega)]

theorem halfOf_setHalf (v : Word) (b : BitVec 16) : halfOf (setHalf v 0 b) 1 = halfOf v 1 := by
  apply BitVec.eq_of_getLsbD_eq
  intro i hi
  rw [getLsbD_halfOf, getLsbD_halfOf, getLsbD_setHalf _ _ (by omega), if_neg (by omega)]

theorem Reg.upper_write (r : Reg) (h : halfOf v 1 = upper r) :
    upper (r.write v) = upper r &&& ~~~clears r := by
  apply BitVec.eq_of_getLsbD_eq
  intro i hi
  have hv : v.getLsbD (16 * 1 + i) = r.val.getLsbD (16 * 1 + i) := by
    have hbit : (halfOf v 1).getLsbD i = (upper r).getLsbD i := by rw [h]
    rw [upper, getLsbD_halfOf, getLsbD_halfOf, decide_eq_true hi] at hbit
    simpa using hbit
  have hlt : 16 * 1 + i < 32 := by omega
  rw [upper, upper, clears, BitVec.getLsbD_and, BitVec.getLsbD_not, getLsbD_halfOf,
    getLsbD_halfOf, getLsbD_halfOf, Reg.getLsbD_write, hv, BitVec.getLsbD_and,
    BitVec.getLsbD_not, decide_eq_true hi, decide_eq_true hlt]
  cases r.rw.getLsbD (16 * 1 + i) <;> cases r.val.getLsbD (16 * 1 + i) <;>
    cases r.w1c.getLsbD (16 * 1 + i) <;> rfl

/-- The lower half of dword `k` has been written, at least once. -/
structure Flushes (k : Nat) (c c' : Config) : Prop where
  upper : upper (c' k) = upper (c k) &&& ~~~clears (c k)
  clears : clears (c' k) = clears (c k)

namespace Flushes

theorem write (c : Config) (h : halfOf v 1 = Pci.upper (c k)) : Flushes k c (c.write k v) := by
  refine ⟨?_, ?_⟩
  · rw [Config.write_same]
    exact (c k).upper_write h
  · rw [Config.write_same]
    rfl

theorem write8 (c : Config) (v : BitVec 8) (hk : dword reg = k) (hlane : reg % 4 < 2) :
    Flushes k c (pciCfgWrite8 funcAccess c reg v) := by
  rw [← hk]
  exact write c (halfOf_setByte _ v hlane)

theorem write16 (c : Config) (v : BitVec 16) (hk : dword reg = k) (hlane : reg % 4 / 2 = 0) :
    Flushes k c (pciCfgWrite16 funcAccess c reg v) := by
  rw [← hk, pciCfgWrite16, hlane]
  exact write c (halfOf_setHalf _ v)

theorem congr_left (h : Flushes k c c') (he : c k = c₀ k) : Flushes k c₀ c' := by
  refine ⟨?_, ?_⟩
  · rw [h.upper, he]
  · rw [h.clears, he]

theorem congr_right (h : Flushes k c c') (he : c'' k = c' k) : Flushes k c c'' := by
  refine ⟨?_, ?_⟩
  · rw [he, h.upper]
  · rw [he, h.clears]

theorem trans (h : Flushes k c₁ c₂) (h' : Flushes k c₂ c₃) : Flushes k c₁ c₃ := by
  refine ⟨?_, h'.clears.trans h.clears⟩
  rw [h'.upper, h.upper, h.clears, BitVec.and_assoc, BitVec.and_self]

theorem keeps_iff (h : Flushes k c c') :
    Pci.upper (c' k) = Pci.upper (c k) ↔ Pci.upper (c k) &&& Pci.clears (c k) = 0#16 := by
  rw [h.upper]
  constructor
  · intro he
    rw [← he, BitVec.and_assoc, BitVec.not_and_self]
    exact BitVec.and_zero
  · intro hz
    apply BitVec.eq_of_getLsbD_eq
    intro i hi
    have hbit : (Pci.upper (c k) &&& Pci.clears (c k)).getLsbD i = false := by
      rw [hz, BitVec.getLsbD_zero]
    rw [BitVec.getLsbD_and] at hbit ⊢
    rw [BitVec.getLsbD_not, decide_eq_true hi]
    cases hu : (Pci.upper (c k)).getLsbD i with
    | false => rfl
    | true =>
      rw [hu, Bool.true_and] at hbit
      rw [hbit]
      rfl

end Flushes

/-- What is read back of a register after the probe has written ones to its address bits. -/
def probed (r : Reg) (addrMask : Word) : Word :=
  (r.write ((r.val &&& ~~~addrMask) ||| addrMask)).val &&& addrMask

/-- BAR slot `i` of a function is implemented. -/
def HasBar (c : Config) (i : Nat) : Prop :=
  probed (c (4 + i)) (barAddrMask (isIo (c (4 + i)).val)) ≠ 0#32

def HasRom (c : Config) : Prop :=
  probed (c (dword (romOffset (headerType c)))) romMask ≠ 0#32

instance (c : Config) (i : Nat) : Decidable (HasBar c i) := inferInstanceAs (Decidable (_ ≠ _))

instance (c : Config) : Decidable (HasRom c) := inferInstanceAs (Decidable (_ ≠ _))

/-- The function decodes an address range. -/
def Decodes (c : Config) : Prop := (∃ i < numBars (headerType c), HasBar c i) ∨ HasRom c

theorem read_probed (c : Config) (offset : Nat) (addrMask : Word) :
    funcAccess.read32 (funcAccess.write32 c offset
      ((funcAccess.read32 c offset &&& ~~~addrMask) ||| addrMask)) offset &&& addrMask =
      probed (c (dword offset)) addrMask := by
  simp only [funcAccess, Config.write_same, probed]

theorem pciBarProbe_absent (c : Config) (offset : Nat)
    (h : probed (c (dword offset)) addrMask = 0#32) :
    (pciBarProbe funcAccess c offset addrMask).1.size = 0#32 ∧
      (pciBarProbe funcAccess c offset addrMask).1.is64 = false := by
  simp only [pciBarProbe, read_probed, if_pos h, and_self]

theorem pciBarProbe_present (c : Config) (offset : Nat)
    (h : probed (c (dword offset)) addrMask ≠ 0#32) :
    (pciBarProbe funcAccess c offset addrMask).1.size ≠ 0#32 := by
  simp only [pciBarProbe, read_probed, if_neg h]
  exact not_add_one_eq_zero h

theorem pciBarProbe_frame (c : Config) (offset : Nat) (addrMask : Word) (h : k ≠ dword offset) :
    (pciBarProbe funcAccess c offset addrMask).2 k = c k := by
  have htouch : Touches [dword offset] c (pciBarProbe funcAccess c offset addrMask).2 :=
    pciBarProbe_touches c addrMask (List.mem_singleton_self _)
  exact htouch.frame k fun hk => h (List.mem_singleton.1 hk)

theorem assign_cmdBits_ne (b : Bars Config) :
    (assign funcAccess loc offset space p value b).cmdBits ≠ 0#16 := by
  simp only [assign]
  intro h
  obtain ⟨-, hbit⟩ := BitVec.or_eq_zero_iff.1 h
  split_ifs at hbit
  · exact absurd hbit (by decide)
  · exact absurd hbit (by decide)

theorem read_isIo (c : Config) (hi : i < 6) :
    (funcAccess.read32 c (0x10 + i * 4) &&& 0x1#32 != 0#32) = isIo (c (4 + i)).val := by
  simp only [funcAccess, dword_bar (hi.trans (by decide)), isIo]

theorem barStep_absent (loc : Loc) (b : Bars Config) (hi : i < 6) (h : ¬ HasBar b.walk.cfg i) :
    (barStep funcAccess loc i b).1.cmdBits = b.cmdBits ∧ (barStep funcAccess loc i b).2 = i + 1 ∧
      ∀ k, 4 + (i + 1) ≤ k → (barStep funcAccess loc i b).1.walk.cfg k = b.walk.cfg k := by
  have hd : dword (0x10 + i * 4) = 4 + i := dword_bar (hi.trans (by decide))
  have hprobed : probed (b.walk.cfg (dword (0x10 + i * 4)))
      (barAddrMask (isIo (b.walk.cfg (4 + i)).val)) = 0#32 := by
    rw [hd]
    exact not_not.1 h
  obtain ⟨hsize, h64⟩ := pciBarProbe_absent b.walk.cfg (0x10 + i * 4) hprobed
  have hne (k : Nat) (hk : 4 + (i + 1) ≤ k) : k ≠ dword (0x10 + i * 4) := by omega
  simp only [barStep, read_isIo b.walk.cfg hi]
  rw [if_pos hsize, h64, if_neg Bool.false_ne_true]
  exact ⟨rfl, rfl, fun k hk => pciBarProbe_frame _ _ _ (hne k hk)⟩

theorem barStep_present (loc : Loc) (b : Bars Config) (hi : i < 6) (h : HasBar b.walk.cfg i) :
    (barStep funcAccess loc i b).1.cmdBits ≠ 0#16 := by
  have hd : dword (0x10 + i * 4) = 4 + i := dword_bar (hi.trans (by decide))
  have hprobed : probed (b.walk.cfg (dword (0x10 + i * 4)))
      (barAddrMask (isIo (b.walk.cfg (4 + i)).val)) ≠ 0#32 := by
    rw [hd]
    exact h
  simp only [barStep, read_isIo b.walk.cfg hi]
  rw [if_neg (pciBarProbe_present _ _ hprobed)]
  exact assign_cmdBits_ne _

theorem barStep_cmdBits_ne (loc : Loc) (b : Bars Config) (h : b.cmdBits ≠ 0#16) :
    (barStep funcAccess loc i b).1.cmdBits ≠ 0#16 := by
  simp only [barStep]
  split_ifs
  · exact h
  · exact assign_cmdBits_ne _

theorem barLoop_cmdBits_ne (loc : Loc) (nb n i : Nat) (b : Bars Config) (h : b.cmdBits ≠ 0#16) :
    (barLoop funcAccess loc nb n i b).cmdBits ≠ 0#16 := by
  induction n generalizing i b with
  | zero => exact h
  | succ n ih =>
    rw [barLoop]
    split_ifs
    · exact ih _ _ (barStep_cmdBits_ne loc b h)
    · exact h

/-- The BAR loop finds something to enable just if a slot is implemented. -/
theorem barLoop_cmdBits (loc : Loc) (hnb : nb ≤ 6) (n i : Nat) (b : Bars Config)
    (hn : nb ≤ i + n) (hcfg : ∀ k, 4 + i ≤ k → b.walk.cfg k = c k) (hb : b.cmdBits = 0#16) :
    (barLoop funcAccess loc nb n i b).cmdBits ≠ 0#16 ↔ ∃ j < nb, i ≤ j ∧ HasBar c j := by
  induction n generalizing i b with
  | zero =>
    constructor
    · intro h
      exact absurd hb h
    · rintro ⟨j, hj, hij, -⟩
      omega
  | succ n ih =>
    rw [barLoop]
    split_ifs with hi
    · have hbar : HasBar b.walk.cfg i ↔ HasBar c i := by
        rw [HasBar, HasBar, hcfg (4 + i) (Nat.le_refl _)]
      by_cases hc : HasBar c i
      · have hpresent := barStep_present loc b (Nat.lt_of_lt_of_le hi hnb) (hbar.2 hc)
        exact iff_of_true (barLoop_cmdBits_ne loc nb n _ _ hpresent) ⟨i, hi, Nat.le_refl i, hc⟩
      · obtain ⟨hcmd, hnext, hkeep⟩ := barStep_absent loc b (Nat.lt_of_lt_of_le hi hnb)
          (fun h => hc (hbar.1 h))
        dsimp only
        rw [hnext, ih (i + 1) _ (by omega)
          (fun k hk => (hkeep k hk).trans (hcfg k (by omega))) (hcmd.trans hb)]
        constructor
        · rintro ⟨j, hj, hij, h⟩
          exact ⟨j, hj, by omega, h⟩
        · rintro ⟨j, hj, hij, h⟩
          obtain rfl | hlt := Nat.eq_or_lt_of_le hij
          · exact absurd h hc
          · exact ⟨j, hj, hlt, h⟩
    · constructor
      · intro h
        exact absurd hb h
      · rintro ⟨j, hj, hij, -⟩
        omega

theorem romStep_cmdBits (loc : Loc) (offset : Nat) (b : Bars Config) :
    (romStep funcAccess loc offset b).cmdBits ≠ 0#16 ↔
      b.cmdBits ≠ 0#16 ∨ probed (b.walk.cfg (dword offset)) romMask ≠ 0#32 := by
  rw [romMask]
  simp only [romStep]
  by_cases h : probed (b.walk.cfg (dword offset)) 0xFFFFF800#32 = 0#32
  · rw [if_pos (pciBarProbe_absent _ _ h).1]
    exact ⟨.inl, fun hor => hor.resolve_right (not_not.2 h)⟩
  · rw [if_neg (pciBarProbe_present _ _ h)]
    exact iff_of_true (assign_cmdBits_ne _) (.inr h)

theorem barLoop_rom (loc : Loc) (ht : BitVec 8) (c : Config) (w : Walk Config) (hw : w.cfg = c) :
    (barLoop funcAccess loc (numBars ht) (numBars ht) 0 ⟨w, 0#16⟩).walk.cfg
      (dword (romOffset ht)) = c (dword (romOffset ht)) := by
  have hle := numBars_le ht
  have hslot (i : Nat) (hi : i ≤ numBars ht) : dword (0x10 + i * 4) ∈ [4, 5, 6, 7, 8, 9, 10] := by
    have hlt : i < 7 := by omega
    interval_cases i <;> decide
  have htouch : Touches [4, 5, 6, 7, 8, 9, 10] w.cfg
      (barLoop funcAccess loc (numBars ht) (numBars ht) 0 ⟨w, 0#16⟩).walk.cfg :=
    barLoop_touches hslot _ 0 ⟨w, 0#16⟩
  rw [htouch.frame, hw]
  rw [romOffset]
  split_ifs <;> decide

/-- The command register is written for the functions that decode something. -/
theorem probeAssign_cmdBits (loc : Loc) (w : Walk Config) (hw : w.cfg = c) :
    (probeAssignAndPrintBars funcAccess loc (headerType c) w).cmdBits ≠ 0#16 ↔ Decodes c := by
  rw [probeAssignAndPrintBars, romStep_cmdBits, barLoop_rom loc _ c w hw,
    barLoop_cmdBits loc (numBars_le _) _ 0 ⟨w, 0#16⟩ (by omega) (fun k _ => by rw [hw]) rfl,
    Decodes, HasRom]
  simp only [Nat.zero_le, true_and]

theorem bar_mem (ht : BitVec 8) (h : i ≤ numBars ht) :
    dword (0x10 + i * 4) ∈ [4, 5, 6, 7, 8, 9, 10, 12, 14] := by
  have hle := numBars_le ht
  have hi : i < 7 := by omega
  interval_cases i <;> decide

theorem rom_mem (ht : BitVec 8) :
    dword (romOffset ht) ∈ [4, 5, 6, 7, 8, 9, 10, 12, 14] := by
  rw [romOffset]
  split_ifs <;> decide

/-- STATUS after the scan of a function: the command register is written if the function decodes
something. -/
theorem enterFunction_status (loc : Loc) (h : Header) (w : Walk Config)
    (hh : h.headerType = headerType w.cfg) :
    (Decodes w.cfg → Flushes 1 w.cfg (enterFunction funcAccess loc h w).cfg) ∧
      (¬ Decodes w.cfg → (enterFunction funcAccess loc h w).cfg 1 = w.cfg 1) := by
  have htouch := probeAssignAndPrintBars_touches loc (headerType w.cfg)
    { w with out := w.out ++ [.device loc h.vendor h.device h.cls (headerType w.cfg)] }
    (fun _ hi => bar_mem _ hi) (rom_mem _)
  have hbits := probeAssign_cmdBits loc
    { w with out := w.out ++ [.device loc h.vendor h.device h.cls (headerType w.cfg)] } rfl
  have hkeep := htouch.frame 1 (by decide)
  simp only [enterFunction, hh]
  generalize probeAssignAndPrintBars funcAccess loc (headerType w.cfg) _ = b at hbits hkeep ⊢
  constructor
  · intro hdec
    rw [if_neg (hbits.2 hdec)]
    have hcmd (c : Config) (v : BitVec 16) : Flushes 1 c (pciCfgWrite16 funcAccess c 0x04 v) :=
      Flushes.write16 c v (by decide) (by decide)
    exact (hcmd _ _).congr_left hkeep
  · intro hdec
    rw [if_pos (not_not.1 fun hne => hdec (hbits.1 hne))]
    exact hkeep

section Close

variable (start : Alloc) (highest : BitVec 8) (w : Walk Config)

theorem closeBridge_status : Flushes 1 w.cfg (closeBridge funcAccess start highest w).cfg := by
  have hwindow := (bridgeProgramWindow_touches start w.alloc w).frame 1 (by decide)
  have hforward : Flushes 1 (bridgeProgramWindow funcAccess start w.alloc w).cfg
      (enableForwarding funcAccess start w.alloc
        (bridgeProgramWindow funcAccess start w.alloc w)).cfg :=
    Flushes.write16 _ _ (by decide) (by decide)
  have hlast : Touches [6] (enableForwarding funcAccess start w.alloc
      (bridgeProgramWindow funcAccess start w.alloc w)).cfg
      (closeBridge funcAccess start highest w).cfg := Touches.cfgWrite8 _ _ (by decide)
  exact (hforward.congr_left hwindow).congr_right (hlast.frame 1 (by decide))

theorem bridgeIoWindowWrite_secondary (c : Config) (start stop : Word) :
    Flushes 7 c (bridgeIoWindowWrite funcAccess start stop c) := by
  rw [bridgeIoWindowWrite_eq]
  exact (Flushes.write8 c _ (by decide) (by decide)).trans
    (Flushes.write8 _ _ (by decide) (by decide))

theorem closeBridge_secondary : Flushes 7 w.cfg (closeBridge funcAccess start highest w).cfg := by
  have hmem : Touches [8] w.cfg
      (bridgeMemWindowWrite funcAccess 0x20 0x22 start.mem w.alloc.mem w.cfg) :=
    bridgeMemWindowWrite_touches _ (by decide) (by decide)
  have hpref (c : Config) : Touches [9] c
      (bridgeMemWindowWrite funcAccess 0x24 0x26 start.pref w.alloc.pref c) :=
    bridgeMemWindowWrite_touches c (by decide) (by decide)
  have hio := bridgeIoWindowWrite_secondary (bridgeMemWindowWrite funcAccess 0x24 0x26 start.pref
    w.alloc.pref (bridgeMemWindowWrite funcAccess 0x20 0x22 start.mem w.alloc.mem w.cfg))
    start.io w.alloc.io
  refine (hio.congr_left ?_).congr_right (closeBridge_io start highest w)
  rw [(hpref _).frame 7 (by decide), hmem.frame 7 (by decide)]

end Close

section Status

variable (b dev fn : Nat) (c : Config) (s s' : Scan)

theorem entered_status :
    (Decodes c → Flushes 1 c (entered b dev fn c s).cfg) ∧
      (¬ Decodes c → (entered b dev fn c s).cfg 1 = c 1) :=
  enterFunction_status _ (readHeader funcAccess c) (s.walk c) rfl

theorem closed_status : Flushes 1 c (closed b dev fn c s s').cfg := by
  have hopen : (opened b dev fn c s).cfg 1 = (entered b dev fn c s).cfg 1 :=
    (openBridge_touches _ _ _).frame 1 (by decide)
  have hclose : Flushes 1 (opened b dev fn c s).cfg (closed b dev fn c s s').cfg :=
    closeBridge_status _ _ (s'.walk (opened b dev fn c s).cfg)
  by_cases hdec : Decodes c
  · exact ((entered_status b dev fn c s).1 hdec).trans (hclose.congr_left hopen)
  · exact hclose.congr_left (hopen.trans ((entered_status b dev fn c s).2 hdec))

theorem numBars_bridge (h : isBridge c = true) :
    numBars (headerType c) = 2 ∧ romOffset (headerType c) = 0x38 := by
  rw [isBridge, Bool.and_eq_true, beq_iff_eq] at h
  exact ⟨if_pos h.1, if_pos h.1⟩

theorem entered_bridge_touches (h : isBridge c = true) :
    Touches [1, 4, 5, 6, 14] c (entered b dev fn c s).cfg := by
  obtain ⟨hnum, hrom⟩ := numBars_bridge c h
  apply enterFunction_touches_of _ (readHeader funcAccess c) (s.walk c)
  · intro i hi
    rw [show (readHeader funcAccess c).headerType = headerType c from rfl, hnum] at hi
    interval_cases i <;> decide
  · rw [show (readHeader funcAccess c).headerType = headerType c from rfl, hrom]
    decide
  · decide

theorem closed_secondary (h : isBridge c = true) : Flushes 7 c (closed b dev fn c s s').cfg := by
  have henter := (entered_bridge_touches b dev fn c s h).frame 7 (by decide)
  have hopen : (opened b dev fn c s).cfg 7 = (entered b dev fn c s).cfg 7 :=
    (openBridge_touches _ _ _).frame 7 (by decide)
  have hclose : Flushes 7 (opened b dev fn c s).cfg (closed b dev fn c s s').cfg :=
    closeBridge_secondary _ _ (s'.walk (opened b dev fn c s).cfg)
  exact hclose.congr_left (hopen.trans henter)

end Status

def status (c : Config) : BitVec 16 := pciCfgRead16 funcAccess c 0x06

def secondaryStatus (c : Config) : BitVec 16 := pciCfgRead16 funcAccess c 0x1E

/-- The bits of STATUS that are set and that writing ones to them clears. -/
def latched (c : Config) : BitVec 16 := status c &&& clears (c 1)

def secondaryLatched (c : Config) : BitVec 16 := secondaryStatus c &&& clears (c 7)

/-- The same functions with the same status registers. -/
inductive SameStatus : Bus → Bus → Prop
  | nil : SameStatus .nil .nil
  | cons (hstatus : status c' = status c)
      (hsec : isBridge c = true → secondaryStatus c' = secondaryStatus c)
      (hbelow : SameStatus below below') (hrest : SameStatus rest rest') :
      SameStatus (.cons dev fn c below rest) (.cons dev fn c' below' rest')

/-- Nothing is latched in the functions whose command register is written, and in the secondary
status of the bridges. -/
structure Quiet (c : Config) : Prop where
  status : isBridge c = true ∨ Decodes c → latched c = 0#16
  secondary : isBridge c = true → secondaryLatched c = 0#16

def Bus.AllQuiet : Bus → Prop
  | nil => True
  | cons _ _ c below rest => Quiet c ∧ below.AllQuiet ∧ rest.AllQuiet

theorem sameStatus_cons : SameStatus (.cons dev fn c below rest) (.cons dev fn c' below' rest') ↔
    (status c' = status c ∧ (isBridge c = true → secondaryStatus c' = secondaryStatus c)) ∧
      SameStatus below below' ∧ SameStatus rest rest' := by
  constructor
  · intro h
    cases h with
    | cons hstatus hsec hbelow hrest => exact ⟨⟨hstatus, hsec⟩, hbelow, hrest⟩
  · rintro ⟨⟨hstatus, hsec⟩, hbelow, hrest⟩
    exact .cons hstatus hsec hbelow hrest

theorem entered_keeps (b dev fn : Nat) (s : Scan) (h : isBridge c = false) :
    (status (entered b dev fn c s).cfg = status c ∧
      (isBridge c = true →
        secondaryStatus (entered b dev fn c s).cfg = secondaryStatus c)) ↔ Quiet c := by
  have hnot : ¬ isBridge c = true := by rw [h]; exact Bool.false_ne_true
  obtain ⟨hwrite, hkeep⟩ := entered_status b dev fn c s
  constructor
  · rintro ⟨hstatus, -⟩
    refine ⟨fun hdec => ?_, fun hb => absurd hb hnot⟩
    exact (hwrite (hdec.resolve_left hnot)).keeps_iff.1 hstatus
  · intro hquiet
    refine ⟨?_, fun hb => absurd hb hnot⟩
    by_cases hdec : Decodes c
    · exact (hwrite hdec).keeps_iff.2 (hquiet.status (.inr hdec))
    · exact congrArg upper (hkeep hdec)

theorem closed_keeps (b dev fn : Nat) (s s' : Scan) (h : isBridge c = true) :
    (status (closed b dev fn c s s').cfg = status c ∧
      (isBridge c = true →
        secondaryStatus (closed b dev fn c s s').cfg = secondaryStatus c)) ↔ Quiet c := by
  have hstatus := (closed_status b dev fn c s s').keeps_iff
  have hsec := (closed_secondary b dev fn c s s' h).keeps_iff
  constructor
  · rintro ⟨hkeep, hkeepSec⟩
    exact ⟨fun _ => hstatus.1 hkeep, fun _ => hsec.1 (hkeepSec h)⟩
  · intro hquiet
    exact ⟨hstatus.2 (hquiet.status (.inl h)), fun _ => hsec.2 (hquiet.secondary h)⟩

theorem Scans.sameStatus_iff (h : Scans lo cur b s X X' s') :
    SameStatus X X' ↔ X.AllQuiet := by
  induction h with
  | nil => exact iff_of_true .nil trivial
  | @func lo cur dev fn c b s rest rest' s' hplace hbridge hrest ih =>
    rw [sameStatus_cons, entered_keeps b dev fn s hbridge, ih]
    exact and_congr_right fun _ => and_congr_left fun _ => iff_of_true .nil trivial
  | @bridge lo cur dev fn c b s below below' s₁ rest rest' s' hplace hbridge hreset hle hbelow
      hrest ihb ihr =>
    rw [sameStatus_cons, closed_keeps b dev fn s s₁ hbridge, ihb, ihr]
    exact Iff.rfl

/-- The walk leaves the status registers of all functions as they were just if nothing is latched
where it writes. -/
theorem pciWalk_sameStatus_iff (t₀ t₁ : Topology) :
    ∃ depth, ∀ k, ∃ ctx₀ ctx₁, pciWalk (depth + k) t₀.bus t₁.bus = some (ctx₀, ctx₁) ∧
      (SameStatus t₀.bus ctx₀.walk.cfg ↔ t₀.bus.AllQuiet) ∧
      (SameStatus t₁.bus ctx₁.walk.cfg ↔ t₁.bus.AllQuiet) :=
  pciWalk_satisfies t₀ t₁ (fun _ _ h => h.sameStatus_iff) (fun _ _ h => h.sameStatus_iff)

/-- A card with one memory BAR and a parity error in its STATUS, whose error bits are cleared by
writing ones. -/
def faultyCard : Config
  | 0 => ⟨0x10501AF4#32, 0#32, 0#32⟩
  | 1 => ⟨0x80000000#32, 0x00000007#32, 0xF9000000#32⟩
  | 4 => ⟨0#32, 0xFFFFF000#32, 0#32⟩
  | _ => ⟨0#32, 0#32, 0#32⟩

def faultyHost : Topology where
  bus := .cons 0 0 faultyCard .nil .nil
  formed := .func ⟨by decide, by decide, by decide, by decide, .inl rfl⟩ (by decide) .nil
  bridges_le := by decide

/-- The error is cleared with the write of the command register. -/
theorem faultyCard_forgets : ∃ depth, ∀ k, ∃ ctx₀ ctx₁,
    pciWalk (depth + k) faultyHost.bus Topology.vacant.bus = some (ctx₀, ctx₁) ∧
      ¬ SameStatus faultyHost.bus ctx₀.walk.cfg ∧ SameStatus Topology.vacant.bus ctx₁.walk.cfg := by
  refine pciWalk_satisfies faultyHost Topology.vacant (fun X s h hsame => ?_) (fun X s h => ?_)
  · have hquiet := (h.sameStatus_iff.1 hsame).1
    have hdec : Decodes faultyCard := .inl ⟨0, by decide, by decide⟩
    exact absurd (hquiet.status (.inr hdec)) (by decide)
  · exact h.sameStatus_iff.2 trivial

end Pegasos2.Pci
