import Pegasos2.PciFabric

namespace Pegasos2.Pci
set_option autoImplicit true

inductive Space where
  | mem
  | pref
  | io
  deriving DecidableEq, Repr

/-- The running high-water marks of one host: `s_alloc_mem_next`, `s_alloc_pref_next` and
`s_alloc_io_next`. -/
structure Alloc where
  mem : Word
  pref : Word
  io : Word

namespace Alloc

def reset : Alloc := ⟨0x80000000#32, 0xA0000000#32, 0x00001000#32⟩

def next (a : Alloc) : Space → Word
  | .mem => a.mem
  | .pref => a.pref
  | .io => a.io

def set (a : Alloc) (v : Word) : Space → Alloc
  | .mem => { a with mem := v }
  | .pref => { a with pref := v }
  | .io => { a with io := v }

end Alloc

def alignUp (v a : Word) : Word := (v + (a - 1#32)) &&& ~~~(a - 1#32)

structure Loc where
  bus : BitVec 8
  dev : Nat
  fn : Nat
  deriving DecidableEq, Repr

/-- A line of the report on the UART, without its indentation and fixed texts. -/
inductive Line where
  | device (loc : Loc) (vendor device cls : BitVec 16) (headerType : BitVec 8)
  | bar (loc : Loc) (offset : Nat) (space : Space) (is64 : Bool) (size base : Word)
  | cmd (bits : BitVec 16)
  | recurse (secondary : BitVec 8)
  | windows (mem pref io : Option (Word × Word))
  deriving DecidableEq, Repr

/-- What a function is scanned with: the configuration registers, the allocators of the host
and the report so far. -/
structure Walk (σ : Type) where
  cfg : σ
  alloc : Alloc
  out : List Line

section Function

variable (acc : CfgAccess σ)

structure Probe where
  size : Word
  flags : Word
  is64 : Bool

def pciBarProbe (s : σ) (offset : Nat) (addrMask : Word) : Probe × σ :=
  let saved := acc.read32 s offset
  let s := acc.write32 s offset ((saved &&& ~~~addrMask) ||| addrMask)
  let mask := acc.read32 s offset
  let s := acc.write32 s offset saved
  let flags := saved &&& ~~~addrMask
  if mask &&& addrMask = 0#32 then (⟨0#32, flags, false⟩, s)
  else
    (⟨~~~(mask &&& addrMask) + 1#32, flags,
      saved &&& 0x1#32 == 0#32 && saved &&& 0x6#32 == 0x4#32⟩, s)

/-- The state of the BAR loop: the walk and the command bits to enable. -/
structure Bars (σ : Type) where
  walk : Walk σ
  cmdBits : BitVec 16

/-- The assignment of one address range, `value` being what the register gets for a base. -/
def assign (loc : Loc) (offset : Nat) (space : Space) (p : Probe) (value : Word → Word)
    (b : Bars σ) : Bars σ :=
  let base := alignUp (b.walk.alloc.next space) p.size
  let cfg := acc.write32 b.walk.cfg offset (value base)
  { walk :=
      { cfg := if p.is64 then acc.write32 cfg (offset + 4) 0#32 else cfg
        alloc := b.walk.alloc.set (base + p.size) space
        out := b.walk.out ++ [.bar loc offset space p.is64 p.size base] }
    cmdBits := b.cmdBits ||| (if space = .io then 0x1#16 else 0x2#16) }

def barAddrMask (isIo : Bool) : Word := if isIo then 0xFFFFFFFC#32 else 0xFFFFFFF0#32

def barSpace (isIo : Bool) (flags : Word) : Space :=
  if isIo then .io else if flags &&& 0x8#32 != 0#32 then .pref else .mem

/-- One round of the BAR loop, with the slot of the next round. -/
def barStep (loc : Loc) (i : Nat) (b : Bars σ) : Bars σ × Nat :=
  let offset := 0x10 + i * 4
  let isIo := acc.read32 b.walk.cfg offset &&& 0x1#32 != 0#32
  let addrMask := barAddrMask isIo
  let (p, cfg) := pciBarProbe acc b.walk.cfg offset addrMask
  let b := { b with walk := { b.walk with cfg := cfg } }
  (if p.size = 0#32 then b
    else assign acc loc offset (barSpace isIo p.flags) p
      (fun base => (p.flags &&& ~~~addrMask) ||| base) b,
    if p.is64 then i + 2 else i + 1)

/-- The loop over the BAR slots from `i` on. A round takes at least one slot, so that `n`
rounds are enough for `n` slots. -/
def barLoop (loc : Loc) (numBars : Nat) : Nat → Nat → Bars σ → Bars σ
  | 0, _, b => b
  | n + 1, i, b =>
    if i < numBars then
      let r := barStep acc loc i b
      barLoop loc numBars n r.2 r.1
    else b

def romStep (loc : Loc) (romOffset : Nat) (b : Bars σ) : Bars σ :=
  let (p, cfg) := pciBarProbe acc b.walk.cfg romOffset 0xFFFFF800#32
  let b := { b with walk := { b.walk with cfg := cfg } }
  if p.size = 0#32 then b
  else assign acc loc romOffset .mem { p with is64 := false } (fun base => base ||| 0x1#32) b

def numBars (headerType : BitVec 8) : Nat := if headerType &&& 0x7F#8 = 0x01#8 then 2 else 6

def romOffset (headerType : BitVec 8) : Nat :=
  if headerType &&& 0x7F#8 = 0x01#8 then 0x38 else 0x30

def probeAssignAndPrintBars (loc : Loc) (headerType : BitVec 8) (w : Walk σ) : Bars σ :=
  romStep acc loc (romOffset headerType)
    (barLoop acc loc (numBars headerType) (numBars headerType) 0 ⟨w, 0#16⟩)

def granule : Space → Word
  | .mem => 0x00100000#32
  | .pref => 0x00100000#32
  | .io => 0x00001000#32

def memWindowEncode (addr : Word) : BitVec 16 := (addr >>> 16).setWidth 16 &&& 0xFFF0#16

def ioWindowEncode (addr : Word) : BitVec 8 := (addr >>> 8).setWidth 8 &&& 0xF0#8

def bridgeMemWindowWrite (baseOff limitOff : Nat) (start stop : Word) (s : σ) : σ :=
  if stop > start then
    let s := pciCfgWrite16 acc s baseOff (memWindowEncode start)
    pciCfgWrite16 acc s limitOff (memWindowEncode (stop - 1#32))
  else
    let s := pciCfgWrite16 acc s baseOff 0xFFF0#16
    pciCfgWrite16 acc s limitOff 0x0000#16

def memWindowText (start stop : Word) : Option (Word × Word) :=
  if stop > start then
    some (start, (memWindowEncode (stop - 1#32)).setWidth 32 <<< 16 ||| 0xFFFFF#32)
  else none

def bridgeIoWindowWrite (start stop : Word) (s : σ) : σ :=
  if stop > start then
    let s := pciCfgWrite8 acc s 0x1C (ioWindowEncode start)
    pciCfgWrite8 acc s 0x1D (ioWindowEncode (stop - 1#32))
  else
    let s := pciCfgWrite8 acc s 0x1C 0xF0#8
    pciCfgWrite8 acc s 0x1D 0x00#8

def ioWindowText (start stop : Word) : Option (Word × Word) :=
  if stop > start then
    some (start &&& 0xFFFF#32, (ioWindowEncode (stop - 1#32)).setWidth 32 <<< 8 ||| 0x0FFF#32)
  else none

def bridgeProgramWindow (start stop : Alloc) (w : Walk σ) : Walk σ :=
  let s := bridgeMemWindowWrite acc 0x20 0x22 start.mem stop.mem w.cfg
  let s := bridgeMemWindowWrite acc 0x24 0x26 start.pref stop.pref s
  let s := bridgeIoWindowWrite acc start.io stop.io s
  { w with
    cfg := s
    out := w.out ++ [.windows (memWindowText start.mem stop.mem)
      (memWindowText start.pref stop.pref) (ioWindowText start.io stop.io)] }

structure Header where
  vendor : BitVec 16
  device : BitVec 16
  cls : BitVec 16
  headerType : BitVec 8

def readHeader (s : σ) : Header where
  vendor := pciCfgRead16 acc s 0x00
  device := pciCfgRead16 acc s 0x02
  cls := pciCfgRead16 acc s 0x0A
  headerType := pciCfgRead8 acc s 0x0E

def Header.isBridge (h : Header) : Bool :=
  h.headerType &&& 0x7F#8 == 0x01#8 && h.cls == 0x0604#16

/-- The report, the BARs and the command register: what `pci_scan_function` does for a
function of any kind. -/
def enterFunction (loc : Loc) (h : Header) (w : Walk σ) : Walk σ :=
  let w := { w with out := w.out ++ [.device loc h.vendor h.device h.cls h.headerType] }
  let b := probeAssignAndPrintBars acc loc h.headerType w
  if b.cmdBits = 0#16 then b.walk
  else
    let cmd := pciCfgRead16 acc b.walk.cfg 0x04 ||| (b.cmdBits ||| 0x4#16)
    { b.walk with
      cfg := pciCfgWrite16 acc b.walk.cfg 0x04 cmd
      out := b.walk.out ++ [.cmd b.cmdBits] }

/-- The allocators padded to the granularity of a bridge window. -/
def Alloc.pad (a : Alloc) : Alloc :=
  ⟨alignUp a.mem (granule .mem), alignUp a.pref (granule .pref), alignUp a.io (granule .io)⟩

/-- The bridge on the way down: its bus numbers, and the padded allocators. -/
def openBridge (bus secondary : BitVec 8) (w : Walk σ) : Walk σ :=
  let s := pciCfgWrite8 acc w.cfg 0x18 bus
  let s := pciCfgWrite8 acc s 0x19 secondary
  let s := pciCfgWrite8 acc s 0x1A 0xFF#8
  { cfg := s
    alloc := w.alloc.pad
    out := w.out ++ [.recurse secondary] }

def Alloc.padFrom (start stop : Alloc) : Alloc :=
  ⟨if stop.mem > start.mem then alignUp stop.mem (granule .mem) else stop.mem,
    if stop.pref > start.pref then alignUp stop.pref (granule .pref) else stop.pref,
    if stop.io > start.io then alignUp stop.io (granule .io) else stop.io⟩

def forwardBits (start stop : Alloc) : BitVec 16 :=
  (if stop.mem > start.mem then 0x2#16 else 0#16) |||
    (if stop.pref > start.pref then 0x2#16 else 0#16) |||
    (if stop.io > start.io then 0x1#16 else 0#16)

/-- The decoders of the bridge for the windows that are in use. -/
def enableForwarding (start stop : Alloc) (w : Walk σ) : Walk σ :=
  { w with cfg :=
      pciCfgWrite16 acc w.cfg 0x04 (pciCfgRead16 acc w.cfg 0x04 ||| forwardBits start stop) }

/-- The bridge on the way up: its windows and forwarding bits, the allocators advanced over
the rounded windows, and the final subordinate number. -/
def closeBridge (start : Alloc) (highest : BitVec 8) (w : Walk σ) : Walk σ :=
  let w' := enableForwarding acc start w.alloc (bridgeProgramWindow acc start w.alloc w)
  { w' with
    cfg := pciCfgWrite8 acc w'.cfg 0x1A highest
    alloc := start.padFrom w.alloc }

end Function

/-- `struct walk_ctx` of one host, with the state the walk changes. -/
structure Ctx where
  walk : Walk Bus
  nextBus : BitVec 8

def pciScanFunction (scanBus : Ctx → BitVec 8 → Option Ctx) (bus : BitVec 8) (dev fn : Nat)
    (ctx : Ctx) : Option Ctx :=
  let acc := hostAccess bus dev fn
  let h := readHeader acc ctx.walk.cfg
  if h.vendor = 0xFFFF#16 then some ctx
  else
    let w := enterFunction acc ⟨bus, dev, fn⟩ h ctx.walk
    if h.isBridge then
      let w := openBridge acc bus ctx.nextBus w
      (scanBus ⟨w, ctx.nextBus + 1#8⟩ ctx.nextBus).map fun ctx =>
        { ctx with walk := closeBridge acc w.alloc (ctx.nextBus - 1#8) ctx.walk }
    else some { ctx with walk := w }

def pciScanDevice (scanFunction : Nat → Nat → Ctx → Option Ctx) (bus : BitVec 8) (dev : Nat)
    (ctx : Ctx) : Option Ctx :=
  let acc := hostAccess bus dev 0
  if pciCfgRead16 acc ctx.walk.cfg 0x00 = 0xFFFF#16 then some ctx
  else
    let maxFn := if pciCfgRead8 acc ctx.walk.cfg 0x0E &&& 0x80#8 != 0#8 then 8 else 1
    (List.range maxFn).foldlM (fun ctx fn => scanFunction dev fn ctx) ctx

/-- The scan of a bus, with a bound on the depth of the recursion. `none` says that the bound
was not enough. -/
def pciScanBus : Nat → Ctx → BitVec 8 → Option Ctx
  | 0, _, _ => none
  | n + 1, ctx, bus =>
    (List.range 32).foldlM
      (fun ctx dev => pciScanDevice (pciScanFunction (pciScanBus n) bus) bus dev ctx) ctx

def pciWalkHost (depth : Nat) (root : Bus) : Option Ctx :=
  pciScanBus depth ⟨⟨root, Alloc.reset, []⟩, 1#8⟩ 0#8

/-- `pci_walk` over the two hosts. -/
def pciWalk (depth : Nat) (root0 root1 : Bus) : Option (Ctx × Ctx) := do
  let ctx0 ← pciWalkHost depth root0
  let ctx1 ← pciWalkHost depth root1
  some (ctx0, ctx1)

end Pegasos2.Pci
