import Pegasos2.PciConfig
import Mathlib.Tactic.IntervalCases

namespace Pegasos2.Pci
set_option autoImplicit true

def vendorId (c : Config) : BitVec 16 := pciCfgRead16 funcAccess c 0x00

def classCode (c : Config) : BitVec 16 := pciCfgRead16 funcAccess c 0x0A

def headerType (c : Config) : BitVec 8 := pciCfgRead8 funcAccess c 0x0E

/-- The test of `pci_scan_function`: a type-1 header with the class of a PCI-to-PCI bridge. -/
def isBridge (c : Config) : Bool :=
  headerType c &&& 0x7F#8 == 0x01#8 && classCode c == 0x0604#16

def multiFn (c : Config) : Bool := headerType c &&& 0x80#8 != 0#8

def primary (c : Config) : Nat := (pciCfgRead8 funcAccess c 0x18).toNat

def secondary (c : Config) : Nat := (pciCfgRead8 funcAccess c 0x19).toNat

def subordinate (c : Config) : Nat := (pciCfgRead8 funcAccess c 0x1A).toNat

/-- A configuration cycle on a bus: Type 0 for a function of the bus itself, Type 1 for a
function of bus number `b`. -/
inductive Cycle where
  | type0
  | type1 (b : Nat)

/-- The functions of one bus in the order of their device and function numbers, each with the
bus behind it. Behind a function that is no bridge there is nothing. -/
inductive Bus where
  | nil
  | cons (dev fn : Nat) (cfg : Config) (below rest : Bus)

/-- A bridge takes the Type-1 cycles for the buses from its secondary to its subordinate
number, and passes those for its secondary bus on as Type 0. -/
def forward (c : Config) (b : Nat) : Option Cycle :=
  if isBridge c ∧ secondary c ≤ b ∧ b ≤ subordinate c then
    if b = secondary c then some .type0 else some (.type1 b)
  else none

namespace Bus

/-- The data of a read cycle. All ones come back where nothing answers. -/
def read (dev fn k : Nat) : Bus → Cycle → Word
  | nil, _ => BitVec.allOnes 32
  | cons d f c _ rest, .type0 =>
    (if d = dev ∧ f = fn then (c k).val else BitVec.allOnes 32) &&& rest.read dev fn k .type0
  | cons _ _ c below rest, .type1 b =>
    (match forward c b with
      | some cycle => below.read dev fn k cycle
      | none => BitVec.allOnes 32) &&& rest.read dev fn k (.type1 b)

def write (dev fn k : Nat) (v : Word) : Bus → Cycle → Bus
  | nil, _ => nil
  | cons d f c below rest, .type0 =>
    cons d f (if d = dev ∧ f = fn then c.write k v else c) below (rest.write dev fn k v .type0)
  | cons d f c below rest, .type1 b =>
    cons d f c
      (match forward c b with
        | some cycle => below.write dev fn k v cycle
        | none => below)
      (rest.write dev fn k v (.type1 b))

end Bus

def pciCfgAddress (bus : BitVec 8) (dev fn reg : Nat) : Word :=
  0x80000000#32 ||| bus.setWidth 32 <<< 16 ||| BitVec.ofNat 32 dev <<< 11 |||
    BitVec.ofNat 32 fn <<< 8 ||| (BitVec.ofNat 32 reg &&& 0xFC#32)

/-- The cycle that the host bridge emits for a bus number: Type 0 on its own bus. -/
def hostCycle (b : Nat) : Cycle := if b = 0 then .type0 else .type1 b

/-- The configuration data register, for a content of the configuration address register. -/
def hostRead (root : Bus) (addr : Word) : Word :=
  root.read (addr.extractLsb' 11 5).toNat (addr.extractLsb' 8 3).toNat
    (addr.extractLsb' 2 6).toNat (hostCycle (addr.extractLsb' 16 8).toNat)

def hostWrite (root : Bus) (addr v : Word) : Bus :=
  root.write (addr.extractLsb' 11 5).toNat (addr.extractLsb' 8 3).toNat
    (addr.extractLsb' 2 6).toNat v (hostCycle (addr.extractLsb' 16 8).toNat)

/-- `pci_cfg_read32` and `pci_cfg_write32` for the function `bus:dev.fn` of one host. -/
def hostAccess (bus : BitVec 8) (dev fn : Nat) : CfgAccess Bus where
  read32 root reg := hostRead root (pciCfgAddress bus dev fn reg)
  write32 root reg v := hostWrite root (pciCfgAddress bus dev fn reg) v

theorem getLsbD_ofNat_of_lt (h : n < 2 ^ k) (hk : k ≤ i) :
    (BitVec.ofNat 32 n).getLsbD i = false := by
  rw [BitVec.getLsbD_ofNat, Nat.testBit_lt_two_pow
    (Nat.lt_of_lt_of_le h (Nat.pow_le_pow_right Nat.two_pos hk)), Bool.and_false]

theorem getLsbD_pciCfgAddress (bus : BitVec 8) (hd : dev < 2 ^ 5) (hf : fn < 2 ^ 3) (hi : i < 32) :
    (pciCfgAddress bus dev fn reg).getLsbD i =
      if i < 8 then (BitVec.ofNat 32 reg).getLsbD i && (0xFC#32).getLsbD i
      else if i < 11 then (BitVec.ofNat 32 fn).getLsbD (i - 8)
      else if i < 16 then (BitVec.ofNat 32 dev).getLsbD (i - 11)
      else if i < 24 then bus.getLsbD (i - 16) else decide (i = 31) := by
  simp only [pciCfgAddress, BitVec.getLsbD_or, BitVec.getLsbD_and, BitVec.getLsbD_shiftLeft,
    BitVec.getLsbD_setWidth]
  interval_cases i <;>
    simp [getLsbD_ofNat_of_lt hd, getLsbD_ofNat_of_lt hf, -BitVec.getLsbD_eq_getElem]

theorem pciCfgAddress_bus (bus : BitVec 8) (hd : dev < 2 ^ 5) (hf : fn < 2 ^ 3) :
    (pciCfgAddress bus dev fn reg).extractLsb' 16 8 = bus := by
  apply BitVec.eq_of_getLsbD_eq
  intro i hi
  rw [BitVec.getLsbD_extractLsb', getLsbD_pciCfgAddress bus hd hf (by omega), if_neg (by omega),
    if_neg (by omega), if_neg (by omega), if_pos (by omega), Nat.add_sub_cancel_left]
  simp [hi]

theorem pciCfgAddress_dev (bus : BitVec 8) (hd : dev < 2 ^ 5) (hf : fn < 2 ^ 3) :
    ((pciCfgAddress bus dev fn reg).extractLsb' 11 5).toNat = dev := by
  have h : (pciCfgAddress bus dev fn reg).extractLsb' 11 5 = BitVec.ofNat 5 dev := by
    apply BitVec.eq_of_getLsbD_eq
    intro i hi
    rw [BitVec.getLsbD_extractLsb', getLsbD_pciCfgAddress bus hd hf (by omega),
      if_neg (by omega), if_neg (by omega), if_pos (by omega), Nat.add_sub_cancel_left,
      BitVec.getLsbD_ofNat, BitVec.getLsbD_ofNat]
    simp [hi, show i < 32 by omega]
  rw [h, BitVec.toNat_ofNat, Nat.mod_eq_of_lt hd]

theorem pciCfgAddress_fn (bus : BitVec 8) (hd : dev < 2 ^ 5) (hf : fn < 2 ^ 3) :
    ((pciCfgAddress bus dev fn reg).extractLsb' 8 3).toNat = fn := by
  have h : (pciCfgAddress bus dev fn reg).extractLsb' 8 3 = BitVec.ofNat 3 fn := by
    apply BitVec.eq_of_getLsbD_eq
    intro i hi
    rw [BitVec.getLsbD_extractLsb', getLsbD_pciCfgAddress bus hd hf (by omega),
      if_neg (by omega), if_pos (by omega), Nat.add_sub_cancel_left,
      BitVec.getLsbD_ofNat, BitVec.getLsbD_ofNat]
    simp [hi, show i < 32 by omega]
  rw [h, BitVec.toNat_ofNat, Nat.mod_eq_of_lt hf]

theorem getLsbD_0xFC (h : i < 6) : (0xFC#32).getLsbD (2 + i) = true := by
  interval_cases i <;> rfl

theorem pciCfgAddress_reg (bus : BitVec 8) (hd : dev < 2 ^ 5) (hf : fn < 2 ^ 3) :
    ((pciCfgAddress bus dev fn reg).extractLsb' 2 6).toNat = dword reg := by
  have h : (pciCfgAddress bus dev fn reg).extractLsb' 2 6 = BitVec.ofNat 6 (reg / 4) := by
    apply BitVec.eq_of_getLsbD_eq
    intro i hi
    rw [BitVec.getLsbD_extractLsb', getLsbD_pciCfgAddress bus hd hf (by omega),
      if_pos (by omega), getLsbD_0xFC hi, BitVec.getLsbD_ofNat, BitVec.getLsbD_ofNat,
      show (4 : Nat) = 2 ^ 2 from rfl, Nat.testBit_div_two_pow, Nat.add_comm i 2]
    simp [hi, show 2 + i < 32 by omega]
  rw [h, BitVec.toNat_ofNat, dword]
  omega

theorem hostAccess_read32 (root : Bus) (bus : BitVec 8) (hd : dev < 2 ^ 5) (hf : fn < 2 ^ 3) :
    (hostAccess bus dev fn).read32 root reg =
      root.read dev fn (dword reg) (hostCycle bus.toNat) := by
  simp only [hostAccess, hostRead, pciCfgAddress_bus bus hd hf, pciCfgAddress_dev bus hd hf,
    pciCfgAddress_fn bus hd hf, pciCfgAddress_reg bus hd hf]

theorem hostAccess_write32 (root : Bus) (bus : BitVec 8) (hd : dev < 2 ^ 5) (hf : fn < 2 ^ 3) :
    (hostAccess bus dev fn).write32 root reg v =
      root.write dev fn (dword reg) v (hostCycle bus.toNat) := by
  simp only [hostAccess, hostWrite, pciCfgAddress_bus bus hd hf, pciCfgAddress_dev bus hd hf,
    pciCfgAddress_fn bus hd hf, pciCfgAddress_reg bus hd hf]

end Pegasos2.Pci
