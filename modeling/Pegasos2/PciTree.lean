import Pegasos2.PciBars

namespace Pegasos2.Pci
set_option autoImplicit true

/-- The five cells of an entry of `reg` or `assigned-addresses`. -/
structure PciEntry where
  physhi : Word
  physmid : Word
  physlo : Word
  sizehi : Word
  sizelo : Word
  deriving DecidableEq, Repr

def physhiMk (n p ss bus dev func reg : Word) : Word :=
  (n &&& 1#32) <<< 31 ||| (p &&& 1#32) <<< 30 ||| (ss &&& 7#32) <<< 24 |||
    (bus &&& 0xFF#32) <<< 16 ||| (dev &&& 0x1F#32) <<< 11 ||| (func &&& 7#32) <<< 8 |||
    (reg &&& 0xFF#32)

/-- The first cell for a register of the function at `loc`. -/
def physhi (loc : Loc) (p ss : Word) (reg : Nat) : Word :=
  physhiMk 0#32 p ss (loc.bus.setWidth 32) (BitVec.ofNat 32 loc.dev) (BitVec.ofNat 32 loc.fn)
    (BitVec.ofNat 32 reg)

def barSs (io is64 : Bool) : Word := if io then 1#32 else if is64 then 3#32 else 2#32

def barPbit (io : Bool) (flags : Word) : Word :=
  if io then 0#32 else if flags &&& 0x8#32 != 0#32 then 1#32 else 0#32

/-- A property in the making: the configuration registers, the entries so far and
`bars_present`. -/
structure Props (σ : Type) where
  cfg : σ
  entries : List PciEntry
  present : BitVec 8

section Install

variable (acc : CfgAccess σ)

def barProbe (s : σ) (offset : Nat) : Probe × σ :=
  let saved := acc.read32 s offset
  let io := saved &&& 0x1#32 != 0#32
  let lowBits := if io then saved &&& 0x3#32 else saved &&& 0xF#32
  let addrMask := if io then 0xFFFFFFFC#32 else 0xFFFFFFF0#32
  let is64 := !io && saved &&& 0x6#32 == 0x4#32
  let s := acc.write32 s offset ((saved &&& ~~~addrMask) ||| addrMask)
  let set := acc.read32 s offset
  let s := acc.write32 s offset saved
  if set = 0#32 then (⟨0#32, 0#32, is64⟩, s)
  else (⟨~~~(set &&& addrMask) + 1#32, lowBits, is64⟩, s)

/-- One round of the BAR loop of `set_reg_prop`. -/
def regStep (loc : Loc) (i : Nat) (t : Props σ) : Props σ × Nat :=
  let offset := 0x10 + i * 4
  let (p, cfg) := barProbe acc t.cfg offset
  let io := p.flags &&& 0x1#32 != 0#32
  (if p.size = 0#32 then { t with cfg := cfg }
    else
      { cfg := cfg
        entries := t.entries ++
          [⟨physhi loc (barPbit io p.flags) (barSs io p.is64) offset, 0#32, 0#32, 0#32, p.size⟩]
        present := t.present ||| 1#8 <<< i },
    if p.is64 then i + 2 else i + 1)

def regLoop (loc : Loc) : Nat → Nat → Props σ → Props σ
  | 0, _, t => t
  | n + 1, i, t =>
    if i < 6 then
      let r := regStep acc loc i t
      regLoop loc n r.2 r.1
    else t

def regRom (loc : Loc) (t : Props σ) : Props σ :=
  let (p, cfg) := barProbe acc t.cfg 0x30
  if p.size = 0#32 then { t with cfg := cfg }
  else
    { cfg := cfg
      entries := t.entries ++ [⟨physhi loc 0#32 2#32 0x30, 0#32, 0#32, 0#32, p.size⟩]
      present := t.present ||| 0x80#8 }

/-- The value of `reg`, with `bars_present`. -/
def setRegProp (loc : Loc) (headerTypeKind : BitVec 8) (s : σ) : Props σ :=
  let t : Props σ := ⟨s, [⟨physhi loc 0#32 0#32 0, 0#32, 0#32, 0#32, 0#32⟩], 0#8⟩
  if headerTypeKind = 0x00#8 then regRom acc loc (regLoop acc loc 6 0 t) else t

/-- One round of the BAR loop of `set_assigned_addresses`. -/
def assignedStep (loc : Loc) (i : Nat) (t : Props σ) : Props σ × Nat :=
  if t.present.getLsbD i then
    let offset := 0x10 + i * 4
    let low := acc.read32 t.cfg offset
    let (p, cfg) := barProbe acc t.cfg offset
    let io := low &&& 0x1#32 != 0#32
    let high := if io then 0#32 else if p.is64 then acc.read32 cfg (offset + 4) else 0#32
    let low := low &&& (if io then 0xFFFFFFFC#32 else 0xFFFFFFF0#32)
    ({ t with
        cfg := cfg
        entries := t.entries ++
          [⟨physhi loc (barPbit io p.flags) (barSs io p.is64) offset, high, low, 0#32, p.size⟩] },
      if p.is64 then i + 2 else i + 1)
  else (t, i + 1)

def assignedLoop (loc : Loc) : Nat → Nat → Props σ → Props σ
  | 0, _, t => t
  | n + 1, i, t =>
    if i < 6 then
      let r := assignedStep acc loc i t
      assignedLoop loc n r.2 r.1
    else t

def assignedRom (loc : Loc) (t : Props σ) : Props σ :=
  if t.present &&& 0x80#8 = 0#8 then t
  else
    let rom := acc.read32 t.cfg 0x30
    let (p, cfg) := barProbe acc t.cfg 0x30
    let rom := rom &&& 0xFFFFF800#32
    if rom ≠ 0#32 ∧ p.size ≠ 0#32 then
      { t with
        cfg := cfg
        entries := t.entries ++ [⟨physhi loc 0#32 2#32 0x30, 0#32, rom, 0#32, p.size⟩] }
    else { t with cfg := cfg }

/-- The value of `assigned-addresses`. -/
def setAssignedAddresses (loc : Loc) (present : BitVec 8) (s : σ) : Props σ :=
  assignedRom acc loc (assignedLoop acc loc 6 0 ⟨s, [], present⟩)

/-- The two properties of a node that describe its BARs. -/
structure Node where
  reg : List PciEntry
  assigned : List PciEntry
  deriving DecidableEq, Repr

/-- The node of a function, if there is a function. -/
def installOneDevice (loc : Loc) (s : σ) : Option Node × σ :=
  if pciCfgRead16 acc s 0x00 = 0xFFFF#16 then (none, s)
  else
    let header := pciCfgRead8 acc s 0x0E
    let reg := setRegProp acc loc (header &&& 0x7F#8) s
    let assigned := setAssignedAddresses acc loc reg.present reg.cfg
    (some ⟨reg.entries, assigned.entries⟩, assigned.cfg)

end Install

def Props.map (f : σ → τ) (t : Props σ) : Props τ := ⟨f t.cfg, t.entries, t.present⟩

namespace CfgAccess.Hom

variable {a : CfgAccess τ} {b : CfgAccess σ} {f : τ → σ}

theorem barProbe (h : a.Hom b f) (s : τ) (offset : Nat) :
    barProbe b (f s) offset = ((Pci.barProbe a s offset).1, f (Pci.barProbe a s offset).2) := by
  simp only [Pci.barProbe, h.read32, h.write32]
  split_ifs <;> rfl

theorem regStep (h : a.Hom b f) (loc : Loc) (i : Nat) (t : Props τ) :
    regStep b loc i (t.map f) = ((Pci.regStep a loc i t).1.map f, (Pci.regStep a loc i t).2) := by
  simp only [Pci.regStep, Props.map, h.barProbe]
  split_ifs <;> rfl

theorem regLoop (h : a.Hom b f) (loc : Loc) (n i : Nat) (t : Props τ) :
    regLoop b loc n i (t.map f) = (Pci.regLoop a loc n i t).map f := by
  induction n generalizing i t with
  | zero => rfl
  | succ n ih =>
    simp only [Pci.regLoop, h.regStep, ih]
    split_ifs <;> rfl

theorem regRom (h : a.Hom b f) (loc : Loc) (t : Props τ) :
    regRom b loc (t.map f) = (Pci.regRom a loc t).map f := by
  simp only [Pci.regRom, Props.map, h.barProbe]
  split_ifs <;> rfl

theorem setRegProp (h : a.Hom b f) (loc : Loc) (kind : BitVec 8) (s : τ) :
    setRegProp b loc kind (f s) = (Pci.setRegProp a loc kind s).map f := by
  have hloop := h.regLoop loc 6 0 ⟨s, [⟨Pci.physhi loc 0#32 0#32 0, 0#32, 0#32, 0#32, 0#32⟩], 0#8⟩
  have hrom := h.regRom loc
    (Pci.regLoop a loc 6 0 ⟨s, [⟨Pci.physhi loc 0#32 0#32 0, 0#32, 0#32, 0#32, 0#32⟩], 0#8⟩)
  rw [← hloop] at hrom
  simp only [Pci.setRegProp]
  split_ifs
  · exact hrom
  · rfl

theorem assignedStep (h : a.Hom b f) (loc : Loc) (i : Nat) (t : Props τ) :
    assignedStep b loc i (t.map f) =
      ((Pci.assignedStep a loc i t).1.map f, (Pci.assignedStep a loc i t).2) := by
  simp only [Pci.assignedStep, Props.map, h.barProbe, h.read32]
  split_ifs <;> rfl

theorem assignedLoop (h : a.Hom b f) (loc : Loc) (n i : Nat) (t : Props τ) :
    assignedLoop b loc n i (t.map f) = (Pci.assignedLoop a loc n i t).map f := by
  induction n generalizing i t with
  | zero => rfl
  | succ n ih =>
    simp only [Pci.assignedLoop, h.assignedStep, ih]
    split_ifs <;> rfl

theorem assignedRom (h : a.Hom b f) (loc : Loc) (t : Props τ) :
    assignedRom b loc (t.map f) = (Pci.assignedRom a loc t).map f := by
  simp only [Pci.assignedRom, Props.map, h.barProbe, h.read32]
  split_ifs <;> rfl

theorem setAssignedAddresses (h : a.Hom b f) (loc : Loc) (present : BitVec 8) (s : τ) :
    setAssignedAddresses b loc present (f s) =
      (Pci.setAssignedAddresses a loc present s).map f := by
  rw [Pci.setAssignedAddresses, Pci.setAssignedAddresses, ← h.assignedRom, ← h.assignedLoop]
  rfl

theorem installOneDevice (h : a.Hom b f) (loc : Loc) (s : τ) :
    installOneDevice b loc (f s) =
      ((Pci.installOneDevice a loc s).1, f (Pci.installOneDevice a loc s).2) := by
  simp only [Pci.installOneDevice, h.read16, h.read8, h.setRegProp, Props.map,
    h.setAssignedAddresses]
  split_ifs <;> rfl

end CfgAccess.Hom

end Pegasos2.Pci
