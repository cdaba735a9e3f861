import Pegasos2.PciWalker

namespace Pegasos2.Pci
set_option autoImplicit true

def Walk.map (f : σ → τ) (w : Walk σ) : Walk τ := ⟨f w.cfg, w.alloc, w.out⟩

def Bars.map (f : σ → τ) (b : Bars σ) : Bars τ := ⟨b.walk.map f, b.cmdBits⟩

namespace CfgAccess.Hom

variable {a : CfgAccess τ} {b : CfgAccess σ} {f : τ → σ}

theorem pciBarProbe (h : a.Hom b f) (s : τ) (offset : Nat) (m : Word) :
    pciBarProbe b (f s) offset m =
      ((Pci.pciBarProbe a s offset m).1, f (Pci.pciBarProbe a s offset m).2) := by
  simp only [Pci.pciBarProbe, h.read32, h.write32]
  split <;> rfl

theorem assign (h : a.Hom b f) (loc : Loc) (offset : Nat) (space : Space) (p : Probe)
    (value : Word → Word) (x : Bars τ) :
    assign b loc offset space p value (x.map f) =
      (Pci.assign a loc offset space p value x).map f := by
  simp only [Pci.assign, Bars.map, Walk.map, h.write32, apply_ite f]

theorem barStep (h : a.Hom b f) (loc : Loc) (i : Nat) (x : Bars τ) :
    barStep b loc i (x.map f) =
      ((Pci.barStep a loc i x).1.map f, (Pci.barStep a loc i x).2) := by
  have hcfg : (x.map f).walk.cfg = f x.walk.cfg := rfl
  simp only [Pci.barStep, hcfg, h.read32, h.pciBarProbe, apply_ite (Bars.map f), ← h.assign]
  rfl

theorem barLoop (h : a.Hom b f) (loc : Loc) (numBars n i : Nat) (x : Bars τ) :
    barLoop b loc numBars n i (x.map f) = (Pci.barLoop a loc numBars n i x).map f := by
  induction n generalizing i x with
  | zero => rfl
  | succ n ih =>
    simp only [Pci.barLoop, h.barStep, ih]
    split <;> rfl

theorem romStep (h : a.Hom b f) (loc : Loc) (romOffset : Nat) (x : Bars τ) :
    romStep b loc romOffset (x.map f) = (Pci.romStep a loc romOffset x).map f := by
  have hcfg : (x.map f).walk.cfg = f x.walk.cfg := rfl
  simp only [Pci.romStep, hcfg, h.pciBarProbe]
  split
  · rfl
  · exact h.assign loc _ _ _ _ ⟨{ x.walk with cfg := _ }, x.cmdBits⟩

theorem probeAssignAndPrintBars (h : a.Hom b f) (loc : Loc) (headerType : BitVec 8)
    (w : Walk τ) :
    probeAssignAndPrintBars b loc headerType (w.map f) =
      (Pci.probeAssignAndPrintBars a loc headerType w).map f := by
  rw [Pci.probeAssignAndPrintBars, Pci.probeAssignAndPrintBars, ← h.romStep, ← h.barLoop]
  rfl

theorem readHeader (h : a.Hom b f) (s : τ) : readHeader b (f s) = Pci.readHeader a s := by
  simp only [Pci.readHeader, h.read16, h.read8]

theorem enterFunction (h : a.Hom b f) (loc : Loc) (hd : Header) (w : Walk τ) :
    enterFunction b loc hd (w.map f) = (Pci.enterFunction a loc hd w).map f := by
  have hbars := h.probeAssignAndPrintBars loc hd.headerType
    { w with out := w.out ++ [.device loc hd.vendor hd.device hd.cls hd.headerType] }
  simp only [Pci.enterFunction]
  rw [show ({ (w.map f) with out := (w.map f).out ++
      [.device loc hd.vendor hd.device hd.cls hd.headerType] } : Walk σ) =
    Walk.map f { w with out := w.out ++
      [.device loc hd.vendor hd.device hd.cls hd.headerType] } from rfl, hbars]
  simp only [Bars.map, Walk.map, h.read16, h.write16]
  split <;> rfl

theorem openBridge (h : a.Hom b f) (bus secondary : BitVec 8) (w : Walk τ) :
    openBridge b bus secondary (w.map f) = (Pci.openBridge a bus secondary w).map f := by
  simp only [Pci.openBridge, Walk.map, h.write8]

theorem bridgeMemWindowWrite (h : a.Hom b f) (baseOff limitOff : Nat) (start stop : Word)
    (s : τ) : bridgeMemWindowWrite b baseOff limitOff start stop (f s) =
      f (Pci.bridgeMemWindowWrite a baseOff limitOff start stop s) := by
  simp only [Pci.bridgeMemWindowWrite, h.write16, apply_ite f]

theorem bridgeIoWindowWrite (h : a.Hom b f) (start stop : Word) (s : τ) :
    bridgeIoWindowWrite b start stop (f s) = f (Pci.bridgeIoWindowWrite a start stop s) := by
  simp only [Pci.bridgeIoWindowWrite, h.write8, apply_ite f]

theorem closeBridge (h : a.Hom b f) (start : Alloc) (highest : BitVec 8) (w : Walk τ) :
    closeBridge b start highest (w.map f) = (Pci.closeBridge a start highest w).map f := by
  simp only [Pci.closeBridge, Pci.enableForwarding, Pci.bridgeProgramWindow, Walk.map,
    h.bridgeMemWindowWrite, h.bridgeIoWindowWrite, h.read16, h.write16, h.write8]

end CfgAccess.Hom

theorem Touches.cfgWrite (c : Config) (v : Word) (hk : dword reg ∈ ks) :
    Touches ks c (funcAccess.write32 c reg v) := Touches.write c v hk

theorem Touches.cfgWrite8 (c : Config) (v : BitVec 8) (hk : dword reg ∈ ks) :
    Touches ks c (pciCfgWrite8 funcAccess c reg v) := Touches.write c _ hk

theorem Touches.cfgWrite16 (c : Config) (v : BitVec 16) (hk : dword reg ∈ ks) :
    Touches ks c (pciCfgWrite16 funcAccess c reg v) := Touches.write c _ hk

theorem pciBarProbe_touches (c : Config) (m : Word) (hk : dword offset ∈ ks) :
    Touches ks c (pciBarProbe funcAccess c offset m).2 := by
  simp only [pciBarProbe, apply_ite Prod.snd, ite_self]
  exact (Touches.cfgWrite c _ hk).trans (Touches.cfgWrite _ _ hk)

theorem assign_touches (b : Bars Config) (hk : dword offset ∈ ks)
    (hk' : p.is64 → dword (offset + 4) ∈ ks) :
    Touches ks b.walk.cfg (assign funcAccess loc offset space p value b).walk.cfg := by
  have hlow : Touches ks b.walk.cfg (funcAccess.write32 b.walk.cfg offset
      (value (alignUp (b.walk.alloc.next space) p.size))) := Touches.cfgWrite _ _ hk
  simp only [assign]
  split
  next h => exact hlow.trans (Touches.cfgWrite _ _ (hk' h))
  next h => exact hlow

theorem barStep_touches (b : Bars Config) (hk : dword (0x10 + i * 4) ∈ ks)
    (hk' : dword (0x10 + i * 4 + 4) ∈ ks) :
    Touches ks b.walk.cfg (barStep funcAccess loc i b).1.walk.cfg := by
  simp only [barStep]
  split
  · exact pciBarProbe_touches _ _ hk
  · exact (pciBarProbe_touches _ _ hk).trans (assign_touches ⟨⟨_, _, _⟩, _⟩ hk (fun _ => hk'))

theorem barLoop_touches (hk : ∀ i, i ≤ nb → dword (0x10 + i * 4) ∈ ks) (n i : Nat)
    (b : Bars Config) :
    Touches ks b.walk.cfg (barLoop funcAccess loc nb n i b).walk.cfg := by
  induction n generalizing i b with
  | zero => exact .refl _ _
  | succ n ih =>
    rw [barLoop]
    split
    next h =>
      have hk' := hk (i + 1) h
      rw [Nat.add_mul, ← Nat.add_assoc] at hk'
      exact (barStep_touches b (hk i h.le) hk').trans (ih _ _)
    next h => exact .refl _ _

theorem romStep_touches (b : Bars Config) (hk : dword offset ∈ ks) :
    Touches ks b.walk.cfg (romStep funcAccess loc offset b).walk.cfg := by
  simp only [romStep]
  split
  · exact pciBarProbe_touches _ _ hk
  · exact (pciBarProbe_touches _ _ hk).trans
      (assign_touches ⟨⟨_, _, _⟩, _⟩ hk (fun h => absurd h Bool.false_ne_true))

/-- The dwords that the scan of a function writes: the command register, the BARs and the
dword behind them, and the ROM BAR. -/
def functionDwords : List Nat := [1, 4, 5, 6, 7, 8, 9, 10, 12, 14]

theorem bar_mem_functionDwords (ht : BitVec 8) (h : i ≤ numBars ht) :
    dword (0x10 + i * 4) ∈ functionDwords := by
  have hi : i < 7 := by
    rw [numBars] at h
    split at h <;> omega
  interval_cases i <;> decide

theorem rom_mem_functionDwords (ht : BitVec 8) : dword (romOffset ht) ∈ functionDwords := by
  rw [romOffset]
  split <;> decide

theorem probeAssignAndPrintBars_touches (loc : Loc) (ht : BitVec 8) (w : Walk Config)
    (hbars : ∀ i ≤ numBars ht, dword (0x10 + i * 4) ∈ ks) (hrom : dword (romOffset ht) ∈ ks) :
    Touches ks w.cfg (probeAssignAndPrintBars funcAccess loc ht w).walk.cfg :=
  (barLoop_touches hbars _ _ ⟨w, 0#16⟩).trans (romStep_touches _ hrom)

theorem enterFunction_touches_of (loc : Loc) (h : Header) (w : Walk Config)
    (hbars : ∀ i ≤ numBars h.headerType, dword (0x10 + i * 4) ∈ ks)
    (hrom : dword (romOffset h.headerType) ∈ ks) (hcmd : 1 ∈ ks) :
    Touches ks w.cfg (enterFunction funcAccess loc h w).cfg := by
  have hprobe := probeAssignAndPrintBars_touches loc h.headerType
    { w with out := w.out ++ [.device loc h.vendor h.device h.cls h.headerType] } hbars hrom
  simp only [enterFunction]
  generalize probeAssignAndPrintBars funcAccess loc h.headerType _ = b at hprobe ⊢
  by_cases hbits : b.cmdBits = 0#16
  · rw [if_pos hbits]
    exact hprobe
  · rw [if_neg hbits]
    exact hprobe.trans (Touches.cfgWrite16 _ _ hcmd)

theorem enterFunction_touches (loc : Loc) (h : Header) (w : Walk Config) :
    Touches functionDwords w.cfg (enterFunction funcAccess loc h w).cfg :=
  enterFunction_touches_of loc h w (fun _ => bar_mem_functionDwords h.headerType)
    (rom_mem_functionDwords h.headerType) (by decide)

theorem openBridge_touches (bus sec : BitVec 8) (w : Walk Config) :
    Touches [6] w.cfg (openBridge funcAccess bus sec w).cfg :=
  ((Touches.cfgWrite8 _ _ (by decide)).trans (Touches.cfgWrite8 _ _ (by decide))).trans
    (Touches.cfgWrite8 _ _ (by decide))

theorem bridgeMemWindowWrite_touches (c : Config) (hb : dword baseOff ∈ ks)
    (hl : dword limitOff ∈ ks) :
    Touches ks c (bridgeMemWindowWrite funcAccess baseOff limitOff start stop c) := by
  simp only [bridgeMemWindowWrite]
  split
  · exact (Touches.cfgWrite16 _ _ hb).trans (Touches.cfgWrite16 _ _ hl)
  · exact (Touches.cfgWrite16 _ _ hb).trans (Touches.cfgWrite16 _ _ hl)

theorem bridgeIoWindowWrite_touches (c : Config) :
    Touches [7] c (bridgeIoWindowWrite funcAccess start stop c) := by
  simp only [bridgeIoWindowWrite]
  split
  · exact (Touches.cfgWrite8 _ _ (by decide)).trans (Touches.cfgWrite8 _ _ (by decide))
  · exact (Touches.cfgWrite8 _ _ (by decide)).trans (Touches.cfgWrite8 _ _ (by decide))

theorem bridgeProgramWindow_touches (start stop : Alloc) (w : Walk Config) :
    Touches [7, 8, 9] w.cfg (bridgeProgramWindow funcAccess start stop w).cfg :=
  ((bridgeMemWindowWrite_touches _ (by decide) (by decide)).trans
    (bridgeMemWindowWrite_touches _ (by decide) (by decide))).trans
    ((bridgeIoWindowWrite_touches _).mono (by decide))

theorem enableForwarding_touches (start stop : Alloc) (w : Walk Config) :
    Touches [1] w.cfg (enableForwarding funcAccess start stop w).cfg :=
  Touches.cfgWrite16 _ _ (by decide)

theorem forwarded_touches (start : Alloc) (w : Walk Config) :
    Touches [1, 7, 8, 9] w.cfg (enableForwarding funcAccess start w.alloc
      (bridgeProgramWindow funcAccess start w.alloc w)).cfg :=
  ((bridgeProgramWindow_touches start w.alloc w).mono (by decide)).trans
    ((enableForwarding_touches _ _ _).mono (by decide))

theorem closeBridge_touches (start : Alloc) (highest : BitVec 8) (w : Walk Config) :
    Touches [1, 6, 7, 8, 9] w.cfg (closeBridge funcAccess start highest w).cfg :=
  ((forwarded_touches start w).mono (by decide)).trans (Touches.cfgWrite8 _ _ (by decide))

theorem getLsbD_of_and_eq {x m : BitVec w} (h : x &&& m = m) (hm : m.getLsbD i) :
    x.getLsbD i := by
  have hi : (x &&& m).getLsbD i = m.getLsbD i := by rw [h]
  rw [BitVec.getLsbD_and, hm, Bool.and_true] at hi
  exact hi

theorem getLsbD_of_and_eq_zero {x m : BitVec w} (h : x &&& m = 0#w) (hm : m.getLsbD i) :
    x.getLsbD i = false := by
  have hi : (x &&& m).getLsbD i = (0#w).getLsbD i := by rw [h]
  rw [BitVec.getLsbD_and, hm, Bool.and_true, BitVec.getLsbD_zero] at hi
  exact hi

/-- The bus numbers of a bridge at reset: zero, and writable. -/
structure BridgeReset (c : Config) : Prop where
  busZero : (c 6).val &&& 0x00FFFFFF#32 = 0#32
  busRw : (c 6).rw &&& 0x00FFFFFF#32 = 0x00FFFFFF#32

theorem getLsbD_0x00FFFFFF (h : i < 24) : (0x00FFFFFF#32).getLsbD i = true := by
  interval_cases i <;> rfl

theorem byteOf_eq_zero (h : v &&& 0x00FFFFFF#32 = 0#32) (hk : k < 3) : byteOf v k = 0#8 := by
  apply BitVec.eq_of_getLsbD_eq
  intro i hi
  rw [getLsbD_byteOf, getLsbD_of_and_eq_zero h (getLsbD_0x00FFFFFF (by omega)), Bool.and_false,
    BitVec.getLsbD_zero]

theorem BridgeReset.subordinate_eq (h : BridgeReset c) : subordinate c = 0 := by
  have hb : pciCfgRead8 funcAccess c 0x1A = 0#8 := byteOf_eq_zero h.busZero (by decide)
  rw [subordinate, hb]
  rfl

theorem BridgeReset.forward_eq (h : BridgeReset c) (hb : 1 ≤ b) : forward c b = none := by
  rw [forward, if_neg]
  rw [h.subordinate_eq]
  omega

/-- The three bus numbers can be written. -/
def BusWritable (c : Config) : Prop := (c 6).rw &&& 0x00FFFFFF#32 = 0x00FFFFFF#32

theorem BusWritable.congr (h : BusWritable c) (he : (c' 6).rw = (c 6).rw) : BusWritable c' := by
  rw [BusWritable, he]
  exact h

theorem BusWritable.write8 (h : BusWritable c) (reg : Nat) (v : BitVec 8) :
    BusWritable (pciCfgWrite8 funcAccess c reg v) := h.congr (Config.write_rw _ _ _ _)

theorem BusWritable.read8_write8 (h : BusWritable c) (hr : dword reg = 6) (hr' : dword reg' = 6)
    (hlane : reg % 4 < 3) (v : BitVec 8) :
    pciCfgRead8 funcAccess (pciCfgWrite8 funcAccess c reg' v) reg =
      if reg % 4 = reg' % 4 then v else pciCfgRead8 funcAccess c reg := by
  have hread := Pci.read8_write8 c reg reg' (BitVec.allOnes 8) v (hr.trans hr'.symm)
    (fun i hi _ => by
      rw [hr]
      exact getLsbD_of_and_eq h (getLsbD_0x00FFFFFF (by omega)))
  rwa [BitVec.and_allOnes, BitVec.and_allOnes] at hread

theorem openBridge_numbers {w : Walk Config} (h : BusWritable w.cfg) (bus sec : BitVec 8) :
    primary (openBridge funcAccess bus sec w).cfg = bus.toNat ∧
      secondary (openBridge funcAccess bus sec w).cfg = sec.toNat ∧
      subordinate (openBridge funcAccess bus sec w).cfg = 255 := by
  have h₁ := h.write8 0x18 bus
  have h₂ := h₁.write8 0x19 sec
  simp only [primary, secondary, subordinate, openBridge]
  refine ⟨?_, ?_, ?_⟩
  · rw [h₂.read8_write8 rfl rfl (by decide), if_neg (by decide),
      h₁.read8_write8 rfl rfl (by decide), if_neg (by decide),
      h.read8_write8 rfl rfl (by decide), if_pos rfl]
  · rw [h₂.read8_write8 rfl rfl (by decide), if_neg (by decide),
      h₁.read8_write8 rfl rfl (by decide), if_pos rfl]
  · rw [h₂.read8_write8 rfl rfl (by decide), if_pos rfl]
    rfl

theorem closeBridge_numbers {w : Walk Config} (h : BusWritable w.cfg) (start : Alloc)
    (highest : BitVec 8) :
    primary (closeBridge funcAccess start highest w).cfg = primary w.cfg ∧
      secondary (closeBridge funcAccess start highest w).cfg = secondary w.cfg ∧
      subordinate (closeBridge funcAccess start highest w).cfg = highest.toNat := by
  have hkeep := (forwarded_touches start w).frame 6 (by decide)
  have h' := h.congr ((forwarded_touches start w).rw_eq 6)
  simp only [primary, secondary, subordinate, closeBridge]
  refine ⟨?_, ?_, ?_⟩
  · rw [h'.read8_write8 rfl rfl (by decide), if_neg (by decide)]
    simp only [pciCfgRead8, funcAccess] at hkeep ⊢
    rw [show dword 0x18 = 6 from rfl, hkeep]
  · rw [h'.read8_write8 rfl rfl (by decide), if_neg (by decide)]
    simp only [pciCfgRead8, funcAccess] at hkeep ⊢
    rw [show dword 0x19 = 6 from rfl, hkeep]
  · rw [h'.read8_write8 rfl rfl (by decide), if_pos rfl]

end Pegasos2.Pci
