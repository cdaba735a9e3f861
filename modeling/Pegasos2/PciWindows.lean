import Pegasos2.PciAllocation

namespace Pegasos2.Pci
open Packing
set_option autoImplicit true

/-- The base and limit registers of all three windows can be written. -/
structure WindowRegs (c : Config) : Prop where
  ioRw : (c 7).rw &&& 0x0000F0F0#32 = 0x0000F0F0#32
  memRw : (c 8).rw &&& 0xFFF0FFF0#32 = 0xFFF0FFF0#32
  prefRw : (c 9).rw &&& 0xFFF0FFF0#32 = 0xFFF0FFF0#32

/-- The base and limit registers of one window can be written. -/
def Implements (c : Config) : Space → Prop
  | .mem => (c 8).rw &&& 0xFFF0FFF0#32 = 0xFFF0FFF0#32
  | .pref => (c 9).rw &&& 0xFFF0FFF0#32 = 0xFFF0FFF0#32
  | .io => (c 7).rw &&& 0x0000F0F0#32 = 0x0000F0F0#32

theorem WindowRegs.implements (h : WindowRegs c) (space : Space) : Implements c space := by
  cases space with
  | mem => exact h.memRw
  | pref => exact h.prefRw
  | io => exact h.ioRw

theorem Implements.touches_iff (ht : Touches ks c c') :
    Implements c' space ↔ Implements c space := by
  cases space with
  | mem => rw [Implements, Implements, ht.rw_eq]
  | pref => rw [Implements, Implements, ht.rw_eq]
  | io => rw [Implements, Implements, ht.rw_eq]

/-- The first address of the window that a bridge decodes. -/
def windowBase (c : Config) : Space → Nat
  | .mem => (pciCfgRead16 funcAccess c 0x20 &&& 0xFFF0#16).toNat * 2 ^ 16
  | .pref => (pciCfgRead16 funcAccess c 0x24 &&& 0xFFF0#16).toNat * 2 ^ 16
  | .io => (pciCfgRead8 funcAccess c 0x1C &&& 0xF0#8).toNat * 2 ^ 8

/-- The last address of the window. -/
def windowLimit (c : Config) : Space → Nat
  | .mem => (pciCfgRead16 funcAccess c 0x22 &&& 0xFFF0#16).toNat * 2 ^ 16 + 0xFFFFF
  | .pref => (pciCfgRead16 funcAccess c 0x26 &&& 0xFFF0#16).toNat * 2 ^ 16 + 0xFFFFF
  | .io => (pciCfgRead8 funcAccess c 0x1D &&& 0xF0#8).toNat * 2 ^ 8 + 0xFFF

theorem read16_congr (h : c' (dword reg) = c (dword reg)) :
    pciCfgRead16 funcAccess c' reg = pciCfgRead16 funcAccess c reg := by
  simp only [pciCfgRead16, funcAccess, h]

theorem read8_congr (h : c' (dword reg) = c (dword reg)) :
    pciCfgRead8 funcAccess c' reg = pciCfgRead8 funcAccess c reg := by
  simp only [pciCfgRead8, funcAccess, h]

theorem getLsbD_0xFFF0FFF0 (hj : j < 2) (hi : i < 16) (hm : (0xFFF0#16).getLsbD i) :
    (0xFFF0FFF0#32).getLsbD (16 * j + i) := by
  interval_cases j <;> interval_cases i <;> first | rfl | exact absurd hm (by decide)

theorem getLsbD_0xF0F0 (hj : j < 2) (hi : i < 8) (hm : (0xF0#8).getLsbD i) :
    (0x0000F0F0#32).getLsbD (8 * j + i) := by
  interval_cases j <;> interval_cases i <;> first | rfl | exact absurd hm (by decide)

/-- The value that the base register of a memory window gets. -/
def memBaseReg (start stop : Word) : BitVec 16 :=
  if stop > start then memWindowEncode start else 0xFFF0#16

def memLimitReg (start stop : Word) : BitVec 16 :=
  if stop > start then memWindowEncode (stop - 1#32) else 0x0000#16

def ioBaseReg (start stop : Word) : BitVec 8 :=
  if stop > start then ioWindowEncode start else 0xF0#8

def ioLimitReg (start stop : Word) : BitVec 8 :=
  if stop > start then ioWindowEncode (stop - 1#32) else 0x00#8

theorem bridgeMemWindowWrite_eq (acc : CfgAccess σ) (baseOff limitOff : Nat) (start stop : Word)
    (s : σ) : bridgeMemWindowWrite acc baseOff limitOff start stop s =
      pciCfgWrite16 acc (pciCfgWrite16 acc s baseOff (memBaseReg start stop)) limitOff
        (memLimitReg start stop) := by
  rw [bridgeMemWindowWrite, memBaseReg, memLimitReg]
  split <;> rfl

theorem bridgeIoWindowWrite_eq (acc : CfgAccess σ) (start stop : Word) (s : σ) :
    bridgeIoWindowWrite acc start stop s =
      pciCfgWrite8 acc (pciCfgWrite8 acc s 0x1C (ioBaseReg start stop)) 0x1D
        (ioLimitReg start stop) := by
  rw [bridgeIoWindowWrite, ioBaseReg, ioLimitReg]
  split <;> rfl

theorem memWindow_base {c : Config} (hrw : (c k).rw &&& 0xFFF0FFF0#32 = 0xFFF0FFF0#32)
    (hb : dword baseOff = k) (hl : dword limitOff = k) (hb' : baseOff % 4 = 0)
    (hl' : limitOff % 4 = 2) (start stop : Word) :
    pciCfgRead16 funcAccess (bridgeMemWindowWrite funcAccess baseOff limitOff start stop c)
        baseOff &&& 0xFFF0#16 = memBaseReg start stop &&& 0xFFF0#16 := by
  have hbits : ∀ i, i < 16 → (0xFFF0#16).getLsbD i →
      (c (dword baseOff)).rw.getLsbD (16 * (baseOff % 4 / 2) + i) := by
    intro i hi hm
    rw [hb, hb']
    exact getLsbD_of_and_eq hrw (getLsbD_0xFFF0FFF0 (by decide) hi hm)
  have hbits' : ∀ i, i < 16 → (0xFFF0#16).getLsbD i →
      (pciCfgWrite16 funcAccess c baseOff (memBaseReg start stop) (dword baseOff)).rw.getLsbD
        (16 * (baseOff % 4 / 2) + i) := by
    intro i hi hm
    rw [pciCfgWrite16, funcAccess, Config.write_rw]
    exact hbits i hi hm
  rw [bridgeMemWindowWrite_eq, read16_write16 _ _ _ _ _ (hb.trans hl.symm) hbits', hb', hl',
    if_neg (by decide), read16_write16 _ _ _ _ _ rfl hbits, if_pos rfl]

theorem memWindow_limit {c : Config} (hrw : (c k).rw &&& 0xFFF0FFF0#32 = 0xFFF0FFF0#32)
    (hl : dword limitOff = k) (hl' : limitOff % 4 = 2) (start stop : Word) :
    pciCfgRead16 funcAccess (bridgeMemWindowWrite funcAccess baseOff limitOff start stop c)
        limitOff &&& 0xFFF0#16 = memLimitReg start stop &&& 0xFFF0#16 := by
  have hbits : ∀ i, i < 16 → (0xFFF0#16).getLsbD i →
      (pciCfgWrite16 funcAccess c baseOff (memBaseReg start stop) (dword limitOff)).rw.getLsbD
        (16 * (limitOff % 4 / 2) + i) := by
    intro i hi hm
    rw [pciCfgWrite16, funcAccess, Config.write_rw, hl, hl']
    exact getLsbD_of_and_eq hrw (getLsbD_0xFFF0FFF0 (by decide) hi hm)
  rw [bridgeMemWindowWrite_eq, read16_write16 _ _ _ _ _ rfl hbits, if_pos rfl]

section IoWindow

variable {c : Config} (hrw : (c 7).rw &&& 0x0000F0F0#32 = 0x0000F0F0#32)

include hrw

theorem ioWindow_base (start stop : Word) :
    pciCfgRead8 funcAccess (bridgeIoWindowWrite funcAccess start stop c) 0x1C &&& 0xF0#8 =
      ioBaseReg start stop &&& 0xF0#8 := by
  have hbits : ∀ i, i < 8 → (0xF0#8).getLsbD i → (c 7).rw.getLsbD (8 * (0x1C % 4) + i) :=
    fun i hi hm => getLsbD_of_and_eq hrw (getLsbD_0xF0F0 (by decide) hi hm)
  have hbits' : ∀ i, i < 8 → (0xF0#8).getLsbD i →
      (pciCfgWrite8 funcAccess c 0x1C (ioBaseReg start stop) 7).rw.getLsbD
        (8 * (0x1C % 4) + i) := by
    intro i hi hm
    rw [pciCfgWrite8, funcAccess, Config.write_rw]
    exact hbits i hi hm
  rw [bridgeIoWindowWrite_eq,
    read8_write8 _ 0x1C 0x1D _ _ rfl hbits', if_neg (by decide),
    read8_write8 _ 0x1C 0x1C _ _ rfl hbits, if_pos rfl]

theorem ioWindow_limit (start stop : Word) :
    pciCfgRead8 funcAccess (bridgeIoWindowWrite funcAccess start stop c) 0x1D &&& 0xF0#8 =
      ioLimitReg start stop &&& 0xF0#8 := by
  have hbits : ∀ i, i < 8 → (0xF0#8).getLsbD i →
      (pciCfgWrite8 funcAccess c 0x1C (ioBaseReg start stop) 7).rw.getLsbD
        (8 * (0x1D % 4) + i) := by
    intro i hi hm
    rw [pciCfgWrite8, funcAccess, Config.write_rw]
    exact getLsbD_of_and_eq hrw (getLsbD_0xF0F0 (by decide) hi hm)
  rw [bridgeIoWindowWrite_eq, read8_write8 _ 0x1D 0x1D _ _ rfl hbits, if_pos rfl]

end IoWindow

theorem memWindowEncode_decode (addr : Word) :
    (memWindowEncode addr &&& 0xFFF0#16).toNat * 2 ^ 16 = addr.toNat / 2 ^ 20 * 2 ^ 20 := by
  have h := toNat_and_not_pow ((addr >>> 16).setWidth 16) (show 4 < 16 by decide)
  have hm : (0xFFF0#16) = ~~~(BitVec.ofNat 16 (2 ^ 4) - 1#16) := by decide
  have hlt := addr.isLt
  rw [memWindowEncode, BitVec.and_assoc, BitVec.and_self, hm, h, BitVec.toNat_setWidth,
    BitVec.toNat_ushiftRight, Nat.shiftRight_eq_div_pow]
  omega

theorem ioWindowEncode_decode (addr : Word) (h16 : addr.toNat < 2 ^ 16) :
    (ioWindowEncode addr &&& 0xF0#8).toNat * 2 ^ 8 = addr.toNat / 2 ^ 12 * 2 ^ 12 := by
  have h := toNat_and_not_pow ((addr >>> 8).setWidth 8) (show 4 < 8 by decide)
  have hm : (0xF0#8) = ~~~(BitVec.ofNat 8 (2 ^ 4) - 1#8) := by decide
  rw [ioWindowEncode, BitVec.and_assoc, BitVec.and_self, hm, h, BitVec.toNat_setWidth,
    BitVec.toNat_ushiftRight, Nat.shiftRight_eq_div_pow]
  omega

/-- The window of a bridge for the addresses from `start` to `stop`, rounded to granules. -/
structure WindowFor (c : Config) (space : Space) (start stop : Nat) : Prop where
  used : start < stop → windowBase c space = start / 2 ^ granuleBits space * 2 ^ granuleBits space ∧
    windowLimit c space + 1 = roundUp stop (2 ^ granuleBits space)
  unused : stop ≤ start → windowLimit c space < windowBase c space

section Close

variable (start : Alloc) (highest : BitVec 8) (w : Walk Config)

theorem bridgeProgramWindow_cfg (stop : Alloc) : (bridgeProgramWindow funcAccess start stop w).cfg =
    bridgeIoWindowWrite funcAccess start.io stop.io
      (bridgeMemWindowWrite funcAccess 0x24 0x26 start.pref stop.pref
        (bridgeMemWindowWrite funcAccess 0x20 0x22 start.mem stop.mem w.cfg)) := by
  rw [bridgeProgramWindow]

theorem closeBridge_tail : Touches [1, 6]
    (bridgeProgramWindow funcAccess start w.alloc w).cfg
    (closeBridge funcAccess start highest w).cfg :=
  ((enableForwarding_touches _ _ _).mono (by decide)).trans (Touches.cfgWrite8 _ _ (by decide))

theorem closeBridge_io : (closeBridge funcAccess start highest w).cfg 7 =
    bridgeIoWindowWrite funcAccess start.io w.alloc.io
      (bridgeMemWindowWrite funcAccess 0x24 0x26 start.pref w.alloc.pref
        (bridgeMemWindowWrite funcAccess 0x20 0x22 start.mem w.alloc.mem w.cfg)) 7 := by
  rw [(closeBridge_tail start highest w).frame 7 (by decide), bridgeProgramWindow_cfg]

theorem closeBridge_pref : (closeBridge funcAccess start highest w).cfg 9 =
    bridgeMemWindowWrite funcAccess 0x24 0x26 start.pref w.alloc.pref
      (bridgeMemWindowWrite funcAccess 0x20 0x22 start.mem w.alloc.mem w.cfg) 9 := by
  rw [(closeBridge_tail start highest w).frame 9 (by decide), bridgeProgramWindow_cfg,
    (bridgeIoWindowWrite_touches _).frame 9 (by decide)]

theorem closeBridge_mem : (closeBridge funcAccess start highest w).cfg 8 =
    bridgeMemWindowWrite funcAccess 0x20 0x22 start.mem w.alloc.mem w.cfg 8 := by
  have hpref (c : Config) : Touches [9] c
      (bridgeMemWindowWrite funcAccess 0x24 0x26 start.pref w.alloc.pref c) :=
    bridgeMemWindowWrite_touches c (by decide) (by decide)
  rw [(closeBridge_tail start highest w).frame 8 (by decide), bridgeProgramWindow_cfg,
    (bridgeIoWindowWrite_touches _).frame 8 (by decide), (hpref _).frame 8 (by decide)]

theorem bridgeMemWindowWrite_rw (baseOff limitOff : Nat) (start stop : Word) (c : Config)
    (k : Nat) : (bridgeMemWindowWrite funcAccess baseOff limitOff start stop c k).rw =
      (c k).rw := by
  rw [bridgeMemWindowWrite_eq, pciCfgWrite16, pciCfgWrite16, funcAccess, Config.write_rw,
    Config.write_rw]

/-- The window registers that `closeBridge` leaves, by their decoded parts. -/
theorem closeBridge_windowBase (space : Space) (hregs : Implements w.cfg space) :
    windowBase (closeBridge funcAccess start highest w).cfg space =
      match space with
      | .mem => (memBaseReg start.mem w.alloc.mem &&& 0xFFF0#16).toNat * 2 ^ 16
      | .pref => (memBaseReg start.pref w.alloc.pref &&& 0xFFF0#16).toNat * 2 ^ 16
      | .io => (ioBaseReg start.io w.alloc.io &&& 0xF0#8).toNat * 2 ^ 8 := by
  cases space with
  | mem =>
    simp only [windowBase]
    rw [read16_congr (closeBridge_mem start highest w),
      memWindow_base hregs rfl rfl rfl rfl]
  | pref =>
    have hrw : (w.cfg 9).rw &&& 0xFFF0FFF0#32 = 0xFFF0FFF0#32 := hregs
    rw [← bridgeMemWindowWrite_rw 0x20 0x22 start.mem w.alloc.mem w.cfg] at hrw
    simp only [windowBase]
    rw [read16_congr (closeBridge_pref start highest w), memWindow_base hrw rfl rfl rfl rfl]
  | io =>
    have hrw : (w.cfg 7).rw &&& 0x0000F0F0#32 = 0x0000F0F0#32 := hregs
    rw [← bridgeMemWindowWrite_rw 0x20 0x22 start.mem w.alloc.mem w.cfg,
      ← bridgeMemWindowWrite_rw 0x24 0x26 start.pref w.alloc.pref] at hrw
    simp only [windowBase]
    rw [read8_congr (closeBridge_io start highest w), ioWindow_base hrw]

theorem closeBridge_windowLimit (space : Space) (hregs : Implements w.cfg space) :
    windowLimit (closeBridge funcAccess start highest w).cfg space =
      match space with
      | .mem => (memLimitReg start.mem w.alloc.mem &&& 0xFFF0#16).toNat * 2 ^ 16 + 0xFFFFF
      | .pref => (memLimitReg start.pref w.alloc.pref &&& 0xFFF0#16).toNat * 2 ^ 16 + 0xFFFFF
      | .io => (ioLimitReg start.io w.alloc.io &&& 0xF0#8).toNat * 2 ^ 8 + 0xFFF := by
  cases space with
  | mem =>
    simp only [windowLimit]
    rw [read16_congr (closeBridge_mem start highest w), memWindow_limit hregs rfl rfl]
  | pref =>
    have hrw : (w.cfg 9).rw &&& 0xFFF0FFF0#32 = 0xFFF0FFF0#32 := hregs
    rw [← bridgeMemWindowWrite_rw 0x20 0x22 start.mem w.alloc.mem w.cfg] at hrw
    simp only [windowLimit]
    rw [read16_congr (closeBridge_pref start highest w), memWindow_limit hrw rfl rfl]
  | io =>
    have hrw : (w.cfg 7).rw &&& 0x0000F0F0#32 = 0x0000F0F0#32 := hregs
    rw [← bridgeMemWindowWrite_rw 0x20 0x22 start.mem w.alloc.mem w.cfg,
      ← bridgeMemWindowWrite_rw 0x24 0x26 start.pref w.alloc.pref] at hrw
    simp only [windowLimit]
    rw [read8_congr (closeBridge_io start highest w), ioWindow_limit hrw]

end Close

theorem toNat_sub_one {v : Word} (h : 0 < v.toNat) : (v - 1#32).toNat = v.toNat - 1 := by
  rw [BitVec.toNat_sub_of_le (by rw [BitVec.le_def]; exact h)]
  rfl

theorem memWindow_used {start stop : Word} (h : start.toNat < stop.toNat) :
    (memBaseReg start stop &&& 0xFFF0#16).toNat * 2 ^ 16 = start.toNat / 2 ^ 20 * 2 ^ 20 ∧
      (memLimitReg start stop &&& 0xFFF0#16).toNat * 2 ^ 16 + 0xFFFFF + 1 =
        roundUp stop.toNat (2 ^ 20) := by
  have hgt : stop > start := BitVec.lt_def.2 h
  rw [memBaseReg, if_pos hgt, memLimitReg, if_pos hgt, memWindowEncode_decode,
    memWindowEncode_decode, toNat_sub_one (by omega), roundUp]
  exact ⟨rfl, by omega⟩

theorem memWindow_unused {start stop : Word} (h : stop.toNat ≤ start.toNat) :
    (memLimitReg start stop &&& 0xFFF0#16).toNat * 2 ^ 16 + 0xFFFFF <
      (memBaseReg start stop &&& 0xFFF0#16).toNat * 2 ^ 16 := by
  have hle : ¬ stop > start := fun hgt =>
    Nat.lt_irrefl _ (Nat.lt_of_lt_of_le (BitVec.lt_def.1 hgt) h)
  rw [memBaseReg, if_neg hle, memLimitReg, if_neg hle]
  decide

theorem ioWindow_used {start stop : Word} (h : start.toNat < stop.toNat)
    (h16 : stop.toNat ≤ 2 ^ 16) :
    (ioBaseReg start stop &&& 0xF0#8).toNat * 2 ^ 8 = start.toNat / 2 ^ 12 * 2 ^ 12 ∧
      (ioLimitReg start stop &&& 0xF0#8).toNat * 2 ^ 8 + 0xFFF + 1 =
        roundUp stop.toNat (2 ^ 12) := by
  have hgt : stop > start := BitVec.lt_def.2 h
  have hlast := toNat_sub_one (show 0 < stop.toNat by omega)
  rw [ioBaseReg, if_pos hgt, ioLimitReg, if_pos hgt, ioWindowEncode_decode _ (by omega),
    ioWindowEncode_decode _ (by omega), hlast, roundUp]
  exact ⟨rfl, by omega⟩

theorem ioWindow_unused {start stop : Word} (h : stop.toNat ≤ start.toNat) :
    (ioLimitReg start stop &&& 0xF0#8).toNat * 2 ^ 8 + 0xFFF <
      (ioBaseReg start stop &&& 0xF0#8).toNat * 2 ^ 8 := by
  have hle : ¬ stop > start := fun hgt =>
    Nat.lt_irrefl _ (Nat.lt_of_lt_of_le (BitVec.lt_def.1 hgt) h)
  rw [ioBaseReg, if_neg hle, ioLimitReg, if_neg hle]
  decide

theorem closeBridge_windowFor (start : Alloc) (highest : BitVec 8) (w : Walk Config)
    (hregs : WindowRegs w.cfg) (hstop : w.alloc.InRegion) (space : Space) :
    WindowFor (closeBridge funcAccess start highest w).cfg space (start.mark space)
      (w.alloc.mark space) := by
  constructor
  · intro h
    have himpl := hregs.implements space
    rw [closeBridge_windowBase start highest w space himpl,
      closeBridge_windowLimit start highest w space himpl]
    cases space with
    | mem => exact memWindow_used h
    | pref => exact memWindow_used h
    | io => exact ioWindow_used h (hstop .io).2
  · intro h
    have himpl := hregs.implements space
    rw [closeBridge_windowBase start highest w space himpl,
      closeBridge_windowLimit start highest w space himpl]
    cases space with
    | mem => exact memWindow_unused h
    | pref => exact memWindow_unused h
    | io => exact ioWindow_unused h

theorem WindowRegs.congr (h : WindowRegs c) (he : ∀ k, (c' k).rw = (c k).rw) : WindowRegs c' :=
  ⟨by rw [he]; exact h.ioRw, by rw [he]; exact h.memRw, by rw [he]; exact h.prefRw⟩

theorem WindowRegs.touches_iff (ht : Touches ks c c') : WindowRegs c' ↔ WindowRegs c :=
  ⟨fun h => h.congr fun k => (ht.rw_eq k).symm, fun h => h.congr ht.rw_eq⟩

theorem closed_windowFor (b dev fn : Nat) (s s' : Scan) (hregs : WindowRegs c)
    (hstop : s'.alloc.InRegion) (space : Space) :
    WindowFor (closed b dev fn c s s').cfg space ((opened b dev fn c s).alloc.mark space)
      (s'.alloc.mark space) :=
  closeBridge_windowFor _ _ (s'.walk _)
    ((WindowRegs.touches_iff (opened_touches b dev fn c s)).2 hregs) hstop space

/-- The ranges of a space lie from `lo` to `hi` in the order of the tree, those behind a bridge
from a granule on, and what follows the bridge behind its window. -/
inductive Laid (space : Space) : Nat → Nat → Bus → List Range → Nat → Prop
  | nil : Laid space b lo .nil [] lo
  | func (hbridge : isBridge c = false) (hown : Packed Range.base Range.stop lo l mid)
      (hloc : ∀ r ∈ l, r.loc = ⟨BitVec.ofNat 8 b, dev, fn⟩)
      (hrest : Laid space b mid rest l' hi) :
      Laid space b lo (.cons dev fn c below rest) (l ++ l') hi
  | bridge (hbridge : isBridge c = true) (hown : Packed Range.base Range.stop lo l mid)
      (hloc : ∀ r ∈ l, r.loc = ⟨BitVec.ofNat 8 b, dev, fn⟩)
      (hpad : start = roundUp mid (2 ^ granuleBits space))
      (hbelow : Laid space (secondary c) start below l₁ stop)
      (hwindow : WindowRegs c → WindowFor c space start stop)
      (hend : next = if start < stop then roundUp stop (2 ^ granuleBits space) else stop)
      (hrest : Laid space b next rest l₂ hi) :
      Laid space b lo (.cons dev fn c below rest) (l ++ (l₁ ++ l₂)) hi

theorem Scans.laid (h : Scans lo cur b s X X' s') (hb : b < 256) :
    ∃ l, ranges s'.out = ranges s.out ++ l ∧ (s.alloc.InRegion → (∀ r ∈ l, r.InRegion) →
      s'.alloc.InRegion ∧ ∀ space, Laid space b (s.alloc.mark space) X' (ofSpace space l)
        (s'.alloc.mark space)) := by
  induction h with
  | nil => exact ⟨[], (List.append_nil _).symm, fun ha _ => ⟨ha, fun _ => .nil⟩⟩
  | @func lo cur dev fn c b s rest rest' s' hplace hbridge hrest ih =>
    obtain ⟨l, hloc, hown⟩ := entered_allots b dev fn c s
    obtain ⟨l', hout, hlaid⟩ := ih hb
    rw [Walk.scan_out, hown.ranges_eq, List.append_assoc] at hout
    refine ⟨l ++ l', hout, fun ha hin => ?_⟩
    have hin₁ : ∀ r ∈ l, r.InRegion := fun r hr => hin r (List.mem_append_left l' hr)
    have hin₂ : ∀ r ∈ l', r.InRegion := fun r hr => hin r (List.mem_append_right l hr)
    rw [Walk.scan_alloc] at hlaid
    obtain ⟨hend, hlaid⟩ := hlaid (hown.inRegion ha hin₁) hin₂
    refine ⟨hend, fun space => ?_⟩
    rw [ofSpace_append]
    exact .func ((entered_isBridge b dev fn c s).trans hbridge) (hown.packed ha hin₁ space)
      (fun r hr => hloc r (mem_ofSpace.1 hr).1) (hlaid space)
  | @bridge lo cur dev fn c b s below below' s₁ rest rest' s' hplace hbridge hreset hle hbelow
      hrest ihb ihr =>
    obtain ⟨-, hsec, -⟩ := hbelow.numbers hreset hb hle
    have hnext := hbelow.next_eq
    rw [Walk.scan_next] at hnext
    obtain ⟨l, hloc, hown⟩ := entered_allots b dev fn c s
    obtain ⟨l₁, hout₁, hlaid₁⟩ := ihb (by omega)
    obtain ⟨l₂, hout₂, hlaid₂⟩ := ihr hb
    rw [Walk.scan_out, opened_ranges, hown.ranges_eq, List.append_assoc] at hout₁
    rw [Walk.scan_out, closed_ranges, hout₁, List.append_assoc, List.append_assoc] at hout₂
    refine ⟨l ++ (l₁ ++ l₂), hout₂, fun ha hin => ?_⟩
    have hin₀ : ∀ r ∈ l, r.InRegion := fun r hr => hin r (List.mem_append_left _ hr)
    have hin₁ : ∀ r ∈ l₁, r.InRegion := fun r hr =>
      hin r (List.mem_append_right _ (List.mem_append_left _ hr))
    have hin₂ : ∀ r ∈ l₂, r.InRegion := fun r hr =>
      hin r (List.mem_append_right _ (List.mem_append_right _ hr))
    have hmid := hown.inRegion ha hin₀
    have hopen : (opened b dev fn c s).alloc.InRegion := by
      rw [opened_alloc]
      exact Alloc.pad_inRegion hmid
    rw [Walk.scan_alloc] at hlaid₁ hlaid₂
    obtain ⟨hstop, hlaid₁⟩ := hlaid₁ hopen hin₁
    have hclose : (closed b dev fn c s s₁).alloc.InRegion := by
      rw [closed_alloc]
      exact Alloc.padFrom_inRegion hstop
    obtain ⟨hend, hlaid₂⟩ := hlaid₂ hclose hin₂
    refine ⟨hend, fun space => ?_⟩
    rw [ofSpace_append, ofSpace_append]
    exact .bridge ((closed_isBridge b dev fn c s s₁).trans hbridge) (hown.packed ha hin₀ space)
      (fun r hr => hloc r (mem_ofSpace.1 hr).1)
      (by rw [opened_alloc, Alloc.pad_mark hmid]) (hsec.symm ▸ hlaid₁ space)
      (fun hregs => closed_windowFor b dev fn s s₁
        ((WindowRegs.touches_iff (closed_touches b dev fn c s s₁)).1 hregs) hstop space)
      (by rw [closed_alloc, Alloc.padFrom_mark hstop]) (hlaid₂ space)

theorem le_next (start stop : Nat) (space : Space) :
    stop ≤ (if start < stop then roundUp stop (2 ^ granuleBits space) else stop) := by
  split
  · exact le_roundUp _ (Nat.two_pow_pos _)
  · exact Nat.le_refl _

namespace Laid

theorem le (h : Laid space b lo X l hi) : lo ≤ hi := by
  induction h with
  | nil => exact Nat.le_refl _
  | func _ hown _ _ ih => exact hown.le.trans ih
  | @bridge c lo l mid b dev fn start below l₁ stop next rest l₂ hi _ hown _ hpad _ _ hend _ ihb
      ihr =>
    have hmid := hown.le
    have hstart := le_roundUp mid (Nat.two_pow_pos (granuleBits space))
    have hnext := le_next start stop space
    omega

theorem bounds (h : Laid space b lo X l hi) (hr : r ∈ l) : lo ≤ r.base ∧ r.stop ≤ hi := by
  induction h with
  | nil => cases hr
  | func _ hown _ hrest ih =>
    obtain hr | hr := List.mem_append.1 hr
    · obtain ⟨h₁, h₂⟩ := hown.bounds hr
      exact ⟨h₁, h₂.trans hrest.le⟩
    · obtain ⟨h₁, h₂⟩ := ih hr
      exact ⟨hown.le.trans h₁, h₂⟩
  | @bridge c lo l mid b dev fn start below l₁ stop next rest l₂ hi _ hown _ hpad hbelow _ hend
      hrest ihb ihr =>
    have hmid := hown.le
    have hstart := le_roundUp mid (Nat.two_pow_pos (granuleBits space))
    have hnext := le_next start stop space
    have hstop := hbelow.le
    have hhi := hrest.le
    rw [List.mem_append, List.mem_append] at hr
    obtain hr | hr | hr := hr
    · obtain ⟨h₁, h₂⟩ := hown.bounds hr
      omega
    · obtain ⟨h₁, h₂⟩ := ihb hr
      omega
    · obtain ⟨h₁, h₂⟩ := ihr hr
      omega

theorem loc_mem (h : Laid space b lo X l hi) (hr : r ∈ l) : r.loc ∈ X.locs b := by
  induction h with
  | nil => cases hr
  | func hbridge _ hloc _ ih =>
    rw [Bus.locs_func hbridge, List.mem_cons]
    obtain hr | hr := List.mem_append.1 hr
    · exact .inl (hloc r hr)
    · exact .inr (ih hr)
  | bridge hbridge _ hloc _ _ _ _ _ ihb ihr =>
    rw [Bus.locs_bridge hbridge, List.mem_cons, List.mem_append]
    rw [List.mem_append, List.mem_append] at hr
    obtain hr | hr | hr := hr
    · exact .inl (hloc r hr)
    · exact .inr (.inl (ihb hr))
    · exact .inr (.inr (ihr hr))

theorem eq_of_nil (h : Laid space b lo X l hi) (hl : l = [])
    (hlo : 2 ^ granuleBits space ∣ lo) : hi = lo := by
  induction h with
  | nil => rfl
  | func _ hown _ _ ih =>
    obtain ⟨rfl, hl'⟩ := List.append_eq_nil_iff.1 hl
    have hmid := hown.eq_of_nil
    rw [ih hl' (hmid ▸ hlo), hmid]
  | @bridge c lo l mid b dev fn start below l₁ stop next rest l₂ hi _ hown _ hpad _ _ hend _ ihb
      ihr =>
    obtain ⟨rfl, hl'⟩ := List.append_eq_nil_iff.1 hl
    obtain ⟨hl₁, hl₂⟩ := List.append_eq_nil_iff.1 hl'
    have hmid := hown.eq_of_nil
    have hstart : start = lo := by
      rw [hpad, hmid]
      exact Nat.le_antisymm (roundUp_le (Nat.le_refl lo) hlo) (le_roundUp lo (Nat.two_pow_pos _))
    have hstop := ihb hl₁ (hstart ▸ hlo)
    rw [hstop, if_neg (Nat.lt_irrefl _)] at hend
    rw [ihr hl₂ (by rw [hend, hstart]; exact hlo), hend, hstart]

end Laid

/-- The address is forwarded by the bridge. -/
def InWindow (c : Config) (space : Space) (a : Nat) : Prop :=
  windowBase c space ≤ a ∧ a ≤ windowLimit c space

/-- A bridge of the tree, with the bus behind it and what follows it on its own bus. -/
inductive HasBridge : Bus → Config → Bus → Bus → Prop
  | here (hbridge : isBridge c = true) : HasBridge (.cons dev fn c below rest) c below rest
  | deeper (hbridge : isBridge c' = true) (hin : HasBridge below' c below rest) :
      HasBridge (.cons dev fn c' below' rest') c below rest
  | later (hin : HasBridge rest' c below rest) :
      HasBridge (.cons dev fn c' below' rest') c below rest

/-- The window of a bridge covers the ranges of the functions behind it, and no others. -/
structure WindowExact (space : Space) (c : Config) (below rest : Bus) (l : List Range) : Prop where
  inside : ∀ r ∈ l, r.space = space → r.loc ∈ below.locs (secondary c) →
    ∀ a, r.base ≤ a → a < r.stop → InWindow c space a
  outside : ∀ r ∈ l, r.space = space → r.loc ∉ below.locs (secondary c) →
    ∀ a, r.base ≤ a → a < r.stop → ¬ InWindow c space a
  apart : ∀ c' ∈ rest.siblings, ∀ a, InWindow c space a → ¬ InWindow c' space a
  disabled : (∀ r ∈ l, r.space = space → r.loc ∉ below.locs (secondary c)) →
    windowLimit c space < windowBase c space

/-- The window of a bridge as a span of the layout: from `start` to `stop`, or nothing. -/
structure Spans (c : Config) (space : Space) (start stop : Nat) : Prop where
  le : start ≤ stop
  mem_iff : ∀ a, InWindow c space a ↔ start ≤ a ∧ a < stop
  empty : start = stop → windowLimit c space < windowBase c space

theorem WindowFor.spans (h : WindowFor c space start stop) (hle : start ≤ stop)
    (hdvd : 2 ^ granuleBits space ∣ start) :
    Spans c space start
      (if start < stop then roundUp stop (2 ^ granuleBits space) else stop) := by
  by_cases hlt : start < stop
  · obtain ⟨hbase, hlimit⟩ := h.used hlt
    have hnext := le_roundUp stop (Nat.two_pow_pos (granuleBits space))
    rw [Nat.div_mul_cancel hdvd] at hbase
    rw [if_pos hlt]
    exact {
      le := by omega
      mem_iff := fun a => by
        rw [InWindow, hbase]
        omega
      empty := fun he => by omega }
  · have hun := h.unused (Nat.le_of_not_lt hlt)
    rw [if_neg hlt]
    exact {
      le := hle
      mem_iff := fun a => by
        rw [InWindow]
        omega
      empty := fun _ => hun }

theorem Laid.sibling_window (h : Laid space b lo X l hi) (hc : c ∈ X.siblings)
    (hregs : WindowRegs c) (ha : InWindow c space a) : lo ≤ a := by
  induction h with
  | nil => cases hc
  | func hbridge hown _ _ ih =>
    rw [Bus.siblings, hbridge] at hc
    exact hown.le.trans (ih hc)
  | @bridge c' lo l mid b dev fn start below l₁ stop next rest l₂ hi hbridge hown _ hpad hbelow
      hwindow hend _ _ ihr =>
    have hmid := hown.le
    have hstart := le_roundUp mid (Nat.two_pow_pos (granuleBits space))
    rw [Bus.siblings, if_pos hbridge, List.singleton_append, List.mem_cons] at hc
    obtain rfl | hc := hc
    · have hspan := ((hwindow hregs).spans hbelow.le (hpad ▸ dvd_roundUp _ _)).mem_iff a
      have := (hspan.1 ha).1
      omega
    · have hnext := le_next start stop space
      have hrest := ihr hc
      have hle := hbelow.le
      omega

/-- Where the window of a bridge lies in the layout of the tree. -/
structure Separates (space : Space) (c : Config) (below rest : Bus) (lo : Nat) (l : List Range)
    (hi start stop : Nat) : Prop where
  spans : Spans c space start stop
  lo_le : lo ≤ start
  le_hi : stop ≤ hi
  inside : ∀ r ∈ l, r.loc ∈ below.locs (secondary c) → start ≤ r.base ∧ r.stop ≤ stop
  outside : ∀ r ∈ l, r.loc ∉ below.locs (secondary c) → r.stop ≤ start ∨ stop ≤ r.base
  empty : (∀ r ∈ l, r.loc ∉ below.locs (secondary c)) → start = stop
  apart : ∀ c' ∈ rest.siblings, ∀ a, InWindow c' space a → stop ≤ a

theorem HasBridge.locs_subset {below rest : Bus} (h : HasBridge X c below rest) (b : Nat) :
    below.locs (secondary c) ⊆ X.locs b := by
  induction h generalizing b with
  | here hbridge =>
    rw [Bus.locs_bridge hbridge]
    exact fun l hl => List.mem_cons_of_mem _ (List.mem_append_left _ hl)
  | deeper hbridge _ ih =>
    rw [Bus.locs_bridge hbridge]
    exact fun l hl => List.mem_cons_of_mem _ (List.mem_append_left _ (ih _ hl))
  | later _ ih =>
    rw [Bus.locs]
    exact fun l hl => List.mem_cons_of_mem _ (List.mem_append_right _ (ih _ hl))

/-- Ranges before the layout of a part of the tree, and ranges behind it, stay outside the
windows of that part. -/
theorem Separates.widen (h : Separates space c below rest lo' l' hi' start stop)
    (before after : List Range) (hlo : lo ≤ lo') (hhi : hi' ≤ hi)
    (hbefore : ∀ r ∈ before, r.loc ∉ below.locs (secondary c) ∧ r.stop ≤ lo')
    (hafter : ∀ r ∈ after, r.loc ∉ below.locs (secondary c) ∧ hi' ≤ r.base) :
    Separates space c below rest lo (before ++ (l' ++ after)) hi start stop where
  spans := h.spans
  lo_le := hlo.trans h.lo_le
  le_hi := h.le_hi.trans hhi
  inside r hr hloc := by
    rw [List.mem_append, List.mem_append] at hr
    obtain hr | hr | hr := hr
    · exact absurd hloc (hbefore r hr).1
    · exact h.inside r hr hloc
    · exact absurd hloc (hafter r hr).1
  outside r hr hloc := by
    rw [List.mem_append, List.mem_append] at hr
    obtain hr | hr | hr := hr
    · exact .inl ((hbefore r hr).2.trans h.lo_le)
    · exact h.outside r hr hloc
    · exact .inr (h.le_hi.trans (hafter r hr).2)
  empty hl := h.empty fun r hr =>
    hl r (List.mem_append_right _ (List.mem_append_left _ hr))
  apart := h.apart

theorem Laid.separates {below rest : Bus} (h : Laid space b lo X l hi) (hnd : (X.locs b).Nodup)
    (hregs : ∀ c ∈ X.allBridges, WindowRegs c) (hbr : HasBridge X c below rest) :
    ∃ start stop, Separates space c below rest lo l hi start stop := by
  induction h with
  | nil => cases hbr
  | @func c' lo l mid b dev fn rest' l' hi below' hbridge hown hloc hrest ih =>
    rw [Bus.locs_func hbridge, List.nodup_cons] at hnd
    cases hbr with
    | here hb => exact absurd (hb.symm.trans hbridge) (by decide)
    | deeper hb _ => exact absurd (hb.symm.trans hbridge) (by decide)
    | later hin =>
      rw [Bus.allBridges_func hbridge] at hregs
      obtain ⟨start, stop, hsep⟩ := ih hnd.2 hregs hin
      refine ⟨start, stop, ?_⟩
      have hwide := hsep.widen l [] hown.le (Nat.le_refl _)
        (fun r hr => ⟨fun hmem => hnd.1 (hloc r hr ▸ hin.locs_subset b hmem), (hown.bounds hr).2⟩)
        (fun r hr => absurd hr List.not_mem_nil)
      rwa [List.append_nil] at hwide
  | @bridge c' lo l mid b dev fn start below' l₁ stop next rest' l₂ hi hbridge hown hloc hpad
      hbelow hwindow hend hrest ihb ihr =>
    rw [Bus.locs_bridge hbridge, List.nodup_cons, List.nodup_append, List.mem_append] at hnd
    obtain ⟨hself, hnd₁, hnd₂, hdisj⟩ := hnd
    have hstart := hpad ▸ le_roundUp mid (Nat.two_pow_pos (granuleBits space))
    have hnext := hend ▸ le_next start stop space
    rw [Bus.allBridges_bridge hbridge] at hregs
    have hregs₁ : ∀ c ∈ below'.allBridges, WindowRegs c := fun c hc =>
      hregs c (List.mem_append_left _ (List.mem_cons_of_mem _ hc))
    have hregs₂ : ∀ c ∈ rest'.allBridges, WindowRegs c := fun c hc =>
      hregs c (List.mem_append_right _ hc)
    cases hbr with
    | here hb =>
      have hspans := (hwindow (hregs _ (List.mem_append_left _ List.mem_cons_self))).spans
        hbelow.le (hpad ▸ dvd_roundUp _ _)
      rw [← hend] at hspans
      refine ⟨start, next, hspans, hown.le.trans hstart, hrest.le, ?_, ?_, ?_, ?_⟩
      · intro r hr hmem
        rw [List.mem_append, List.mem_append] at hr
        obtain hr | hr | hr := hr
        · exact absurd (.inl (hloc r hr ▸ hmem)) hself
        · exact ⟨(hbelow.bounds hr).1, (hbelow.bounds hr).2.trans hnext⟩
        · exact absurd rfl (hdisj _ hmem _ (hrest.loc_mem hr))
      · intro r hr hmem
        rw [List.mem_append, List.mem_append] at hr
        obtain hr | hr | hr := hr
        · exact .inl ((hown.bounds hr).2.trans hstart)
        · exact absurd (hbelow.loc_mem hr) hmem
        · exact .inr (hrest.bounds hr).1
      · intro hl
        have hnil : l₁ = [] := List.eq_nil_iff_forall_not_mem.2 fun r hr =>
          hl r (List.mem_append_right _ (List.mem_append_left _ hr)) (hbelow.loc_mem hr)
        have hstop := hbelow.eq_of_nil hnil (hpad ▸ dvd_roundUp _ _)
        rw [hend, hstop, if_neg (Nat.lt_irrefl _)]
      · exact fun c'' hc'' a ha => hrest.sibling_window hc''
          (hregs₂ c'' (Numbered.siblings_subset _ c'' hc'')) ha
    | deeper hb hin =>
      obtain ⟨start', stop', hsep⟩ := ihb hnd₁ hregs₁ hin
      refine ⟨start', stop', hsep.widen l l₂ (hown.le.trans hstart) (hnext.trans hrest.le) ?_ ?_⟩
      · intro r hr
        exact ⟨fun hmem => hself (.inl (hloc r hr ▸ hin.locs_subset _ hmem)),
          (hown.bounds hr).2.trans hstart⟩
      · intro r hr
        exact ⟨fun hmem => hdisj _ (hin.locs_subset _ hmem) _ (hrest.loc_mem hr) rfl,
          hnext.trans (hrest.bounds hr).1⟩
    | later hin =>
      obtain ⟨start', stop', hsep⟩ := ihr hnd₂ hregs₂ hin
      refine ⟨start', stop', ?_⟩
      have hwide := hsep.widen (l ++ l₁) []
        (hown.le.trans (hstart.trans (hbelow.le.trans hnext))) (Nat.le_refl _) ?_
        (fun r hr => absurd hr List.not_mem_nil)
      · rwa [List.append_nil, List.append_assoc] at hwide
      · intro r hr
        obtain hr | hr := List.mem_append.1 hr
        · exact ⟨fun hmem => hself (.inr (hloc r hr ▸ hin.locs_subset b hmem)),
            (hown.bounds hr).2.trans (hstart.trans (hbelow.le.trans hnext))⟩
        · exact ⟨fun hmem => hdisj _ (hbelow.loc_mem hr) _ (hin.locs_subset b hmem) rfl,
            (hbelow.bounds hr).2.trans hnext⟩

theorem Separates.exact {below rest : Bus} {out : List Range}
    (h : Separates space c below rest lo (ofSpace space out) hi start stop) :
    WindowExact space c below rest out where
  inside r hr hspace hloc a ha ha' := by
    have hin := h.inside r (mem_ofSpace.2 ⟨hr, hspace⟩) hloc
    rw [h.spans.mem_iff]
    omega
  outside r hr hspace hloc a ha ha' := by
    have hout := h.outside r (mem_ofSpace.2 ⟨hr, hspace⟩) hloc
    rw [h.spans.mem_iff]
    omega
  apart c' hc' a ha ha' := by
    have hle := h.apart c' hc' a ha'
    have hlt := (h.spans.mem_iff a).1 ha
    omega
  disabled hl := h.spans.empty (h.empty fun r hr =>
    hl r (mem_ofSpace.1 hr).1 (mem_ofSpace.1 hr).2)

/-- A topology whose bridges implement the three windows. -/
structure WindowedTopology extends Topology where
  windows : ∀ c ∈ bus.allBridges, WindowRegs c

/-- As long as no allocator has left its region, the windows are exact covers. -/
def WindowsExact (ctx : Ctx) : Prop :=
  (∀ r ∈ ranges ctx.walk.out, r.InRegion) → ∀ space c below rest,
    HasBridge ctx.walk.cfg c below rest →
      WindowExact space c below rest (ranges ctx.walk.out)

theorem Alloc.reset_inRegion : Alloc.reset.InRegion := by
  intro space
  cases space <;> decide

theorem Scans.windowRegs (h : Scans lo cur b s X X' s')
    (hregs : ∀ c ∈ X.allBridges, WindowRegs c) : ∀ c ∈ X'.allBridges, WindowRegs c := by
  induction h with
  | nil => exact hregs
  | func _ hbridge _ ih =>
    rw [Bus.allBridges_func hbridge] at hregs
    rw [Bus.allBridges_func ((entered_isBridge _ _ _ _ _).trans hbridge)]
    exact ih hregs
  | @bridge lo cur dev fn c b s below below' s₁ rest rest' s' _ hbridge _ _ _ _ ihb ihr =>
    rw [Bus.allBridges_bridge hbridge] at hregs
    rw [Bus.allBridges_bridge ((closed_isBridge _ _ _ _ _ _).trans hbridge)]
    intro c' hc'
    rw [List.mem_append, List.mem_cons] at hc'
    obtain (rfl | hc') | hc' := hc'
    · exact (WindowRegs.touches_iff (closed_touches b dev fn c s s₁)).2
        (hregs c (List.mem_append_left _ List.mem_cons_self))
    · exact ihb (fun c hc => hregs c (List.mem_append_left _ (List.mem_cons_of_mem _ hc))) c' hc'
    · exact ihr (fun c hc => hregs c (List.mem_append_right _ hc)) c' hc'

theorem Scans.windowsExact (t : WindowedTopology)
    (h : Scans 0 none 0 Scan.reset t.bus X s) : WindowsExact (s.ctx X) := by
  intro hin space c below rest hbr
  have hnext := h.next_eq
  have hle := t.bridges_le
  have hfew : s.next ≤ 256 := by
    rw [hnext, Scan.reset]
    simp only
    omega
  obtain ⟨l, hout, hlaid⟩ := h.laid (by decide)
  have hranges : ranges s.out = l := hout
  have hin' : ∀ r ∈ l, r.InRegion := hranges ▸ hin
  have hnd := h.locs_nodup (by decide) hfew
  obtain ⟨start, stop, hsep⟩ :=
    ((hlaid Alloc.reset_inRegion hin').2 space).separates hnd (h.windowRegs t.windows) hbr
  rw [← hranges] at hsep
  exact hsep.exact

end Pegasos2.Pci
