import Pegasos2.PciIoDecode
import Pegasos2.PciTreeHost
import Mathlib.Data.List.Pairwise

namespace Pegasos2.Pci
set_option autoImplicit true

/-- The six cells of an entry of `ranges`. -/
structure RangesEntry where
  physhi : Word
  physmid : Word
  physlo : Word
  parent : Word
  sizehi : Word
  sizelo : Word
  deriving DecidableEq, Repr

/-- A host package: its `ranges`, and the nodes of the functions behind it. -/
structure HostPackage where
  ranges : List RangesEntry
  children : List (Loc × Node)

/-- The `ranges` of a host package: the I/O window and the memory window, which is mapped to
itself. -/
def createPciHostPackage (ioCpu ioSize memCpu memSize : Word) : List RangesEntry :=
  [⟨physhiMk 0#32 0#32 1#32 0#32 0#32 0#32 0#32, 0#32, 0#32, ioCpu, 0#32, ioSize⟩,
    ⟨physhiMk 0#32 0#32 2#32 0#32 0#32 0#32 0#32, 0#32, memCpu, memCpu, 0#32, memSize⟩]

/-- A round of the loop over the functions of a device. -/
def installFunction (bus : BitVec 8) (dev : Nat) (t : List (Loc × Node) × Bus) (fn : Nat) :
    List (Loc × Node) × Bus :=
  let r := installOneDevice (hostAccess bus dev fn) ⟨bus, dev, fn⟩ t.2
  (t.1 ++ r.1.toList.map fun node => (⟨bus, dev, fn⟩, node), r.2)

/-- A round of the loop over the devices of a bus. -/
def installDevice (bus : BitVec 8) (t : List (Loc × Node) × Bus) (dev : Nat) :
    List (Loc × Node) × Bus :=
  if pciCfgRead16 (hostAccess bus dev 0) t.2 0x00 = 0xFFFF#16 then t
  else
    let header := pciCfgRead8 (hostAccess bus dev 0) t.2 0x0E
    let maxFn := if header &&& 0x80#8 ≠ 0#8 then 8 else 1
    (List.range maxFn).foldl (installFunction bus dev) t

def walkBus (root : Bus) (bus : BitVec 8) : List (Loc × Node) × Bus :=
  (List.range 32).foldl (installDevice bus) ([], root)

/-- The packages of `PCI_HOST_1` and of `PCI_HOST_0`. -/
def installPciTree (root₁ root₀ : Bus) : List HostPackage :=
  [⟨createPciHostPackage 0xFE000000#32 0x00010000#32 0x80000000#32 0x40000000#32,
      (walkBus root₁ 0#8).1⟩,
    ⟨createPciHostPackage 0xF8000000#32 0x00010000#32 0xC0000000#32 0x20000000#32,
      (walkBus root₀ 0#8).1⟩]

/-- An address range of the CPU. -/
structure CpuRange where
  base : Nat
  size : Nat

def CpuRange.Apart (r r' : CpuRange) : Prop :=
  r.base + r.size ≤ r'.base ∨ r'.base + r'.size ≤ r.base

/-- The space code of a first cell is that of I/O space; otherwise it is one of memory space. -/
def isIoSpace (physhi : Word) : Bool := physhi >>> 24 &&& 7#32 == 1#32

/-- The two cells of a number. -/
def cells (hi lo : Word) : Nat := hi.toNat * 2 ^ 32 + lo.toNat

/-- The range of an entry of `assigned-addresses` lies inside a window of the same space. -/
structure RangesEntry.Holds (w : RangesEntry) (e : PciEntry) : Prop where
  space : isIoSpace e.physhi = isIoSpace w.physhi
  base_le : cells w.physmid w.physlo ≤ cells e.physmid e.physlo
  le_stop : cells e.physmid e.physlo + cells e.sizehi e.sizelo ≤
    cells w.physmid w.physlo + cells w.sizehi w.sizelo

instance (w : RangesEntry) (e : PciEntry) : Decidable (w.Holds e) :=
  decidable_of_iff (isIoSpace e.physhi = isIoSpace w.physhi ∧
    cells w.physmid w.physlo ≤ cells e.physmid e.physlo ∧
      cells e.physmid e.physlo + cells e.sizehi e.sizelo ≤
        cells w.physmid w.physlo + cells w.sizehi w.sizelo)
    ⟨fun h => ⟨h.1, h.2.1, h.2.2⟩, fun h => ⟨h.1, h.2, h.3⟩⟩

/-- The range of the CPU that `ranges` maps to a range of the bus. -/
def translate (ranges : List RangesEntry) (e : PciEntry) : Option CpuRange :=
  (ranges.find? fun w => w.Holds e).map fun w =>
    ⟨w.parent.toNat + (cells e.physmid e.physlo - cells w.physmid w.physlo),
      cells e.sizehi e.sizelo⟩

def HostPackage.assigned (host : HostPackage) : List PciEntry :=
  host.children.flatMap fun child => child.2.assigned

/-- All assigned ranges lie in the windows of their hosts, and the CPU sees them apart. -/
structure Translatable (hosts : List HostPackage) : Prop where
  inside : ∀ host ∈ hosts, ∀ e ∈ host.assigned, ∃ w ∈ host.ranges, w.Holds e
  apart : (hosts.flatMap fun host => host.assigned.filterMap (translate host.ranges)).Pairwise
    CpuRange.Apart

theorem foldl_collects {step : List β × σ → α → List β × σ} {f : α → List β} (l : List α)
    (h : ∀ x ∈ l, ∀ acc, step (acc, s) x = (acc ++ f x, s)) (acc : List β) :
    l.foldl step (acc, s) = (acc ++ l.flatMap f, s) := by
  induction l generalizing acc with
  | nil => rw [List.foldl_nil, List.flatMap_nil, List.append_nil]
  | cons x l ih =>
    rw [List.foldl_cons, h x List.mem_cons_self, ih fun y hy => h y (List.mem_cons_of_mem x hy),
      List.flatMap_cons, List.append_assoc]

namespace Bus

/-- The functions of the bus itself. -/
def own : Bus → List (Nat × Nat × Config)
  | nil => []
  | cons dev fn c _ rest => (dev, fn, c) :: rest.own

theorem own_functions (X : Bus) (hf : (dev, fn, c) ∈ X.own) :
    (⟨BitVec.ofNat 8 b, dev, fn⟩, c) ∈ X.functions b n := by
  induction X generalizing n with
  | nil => cases hf
  | cons d f c' below rest _ ih =>
    cases hbridge : isBridge c' with
    | false =>
      rw [functions_func hbridge]
      cases hf with
      | head => exact List.mem_cons_self
      | tail _ hf => exact List.mem_cons_of_mem _ (ih hf)
    | true =>
      rw [functions_bridge hbridge]
      cases hf with
      | head => exact List.mem_cons_self
      | tail _ hf => exact List.mem_cons_of_mem _ (List.mem_append_right _ (ih hf))

theorem own_arrivals (X : Bus) (hf : (dev, fn, c) ∈ X.own) (a : Alloc) :
    ∃ a', (⟨⟨BitVec.ofNat 8 b, dev, fn⟩, c, a'⟩ : Arrival) ∈ X.arrivals b n a := by
  induction X generalizing n a with
  | nil => cases hf
  | cons d f c' below rest _ ih =>
    rw [arrivals]
    cases hf with
    | head => exact ⟨a, List.mem_cons_self⟩
    | tail _ hf =>
      split_ifs
      · obtain ⟨a', ha'⟩ := ih hf _
        exact ⟨a', List.mem_cons_of_mem _ ha'⟩
      · obtain ⟨a', ha'⟩ := ih hf _
        exact ⟨a', List.mem_cons_of_mem _ ha'⟩

end Bus

/-- A function is the first one of its device, or behind the first one of a multi-function
device. -/
def FirstIn (cur : Option Nat) (X : Bus) (dev fn : Nat) : Prop :=
  fn = 0 ∨ cur = some dev ∨ ∃ c, (dev, 0, c) ∈ X.own ∧ multiFn c = true

theorem FirstIn.behind (h : FirstIn (inDevice cur d e c) rest dev fn) (below : Bus) :
    FirstIn cur (.cons d e c below rest) dev fn := by
  obtain hzero | hcur | ⟨c', hmem, hmulti⟩ := h
  · exact .inl hzero
  · rw [inDevice] at hcur
    split_ifs at hcur with he hmulti
    · obtain rfl := Option.some.inj hcur
      subst he
      exact .inr (.inr ⟨c, List.mem_cons_self, hmulti⟩)
    · exact .inr (.inl hcur)
  · exact .inr (.inr ⟨c', List.mem_cons_of_mem _ hmem, hmulti⟩)

theorem Placed.firstIn (h : Placed lo cur dev fn c) (X : Bus) : FirstIn cur X dev fn := by
  obtain hzero | hcur := h.cur_eq
  · exact .inl hzero
  · exact .inr (.inl hcur)

theorem Formed.first (h : Formed lo cur X) (hf : (dev, fn, c) ∈ X.own) :
    FirstIn cur X dev fn := by
  induction h with
  | nil => cases hf
  | func hplace hbridge hrest ih =>
    cases hf with
    | head => exact hplace.firstIn _
    | tail _ hf => exact (ih hf).behind _
  | bridge hplace hbridge hreset hbelow hrest _ ih =>
    cases hf with
    | head => exact hplace.firstIn _
    | tail _ hf => exact (ih hf).behind _

theorem Formed.own_pos (h : Formed lo cur X) (hf : (dev, fn, c) ∈ X.own) :
    lo ≤ 8 * dev + fn ∧ dev < 32 ∧ fn < 8 := by
  induction h with
  | nil => cases hf
  | func hplace hbridge hrest ih =>
    cases hf with
    | head => exact ⟨hplace.pos, hplace.dev_lt, hplace.fn_lt⟩
    | tail _ hf =>
      obtain ⟨hle, hlt⟩ := ih hf
      have hpos := hplace.pos
      exact ⟨by omega, hlt⟩
  | bridge hplace hbridge hreset hbelow hrest _ ih =>
    cases hf with
    | head => exact ⟨hplace.pos, hplace.dev_lt, hplace.fn_lt⟩
    | tail _ hf =>
      obtain ⟨hle, hlt⟩ := ih hf
      have hpos := hplace.pos
      exact ⟨by omega, hlt⟩

/-- The function with registers `c` answers at `dev.fn`, and its header is as it was. -/
structure Answers (X : Bus) (dev fn : Nat) (c : Config) : Prop where
  read : ∀ k ∉ functionDwords, X.read dev fn k .type0 = (c k).val
  vendor : vendorId c ≠ 0xFFFF#16

theorem Answers.head (hplace : Placed lo cur dev fn c) (htouch : Touches functionDwords c c')
    (hrest : Scans (8 * dev + fn + 1) cur' b s rest rest' s') (below : Bus) :
    Answers (.cons dev fn c' below rest') dev fn c := by
  refine ⟨fun k hk => ?_, hplace.vendor⟩
  rw [Bus.read, if_pos ⟨rfl, rfl⟩, hrest.read_type0 (Nat.lt_succ_self _), BitVec.and_allOnes]
  exact congrArg Reg.val (htouch.frame k hk)

theorem Answers.behind (h : Answers rest dev fn c) (hne : ¬ (d = dev ∧ e = fn)) (c' : Config)
    (below : Bus) : Answers (.cons d e c' below rest) dev fn c := by
  refine ⟨fun k hk => ?_, h.vendor⟩
  rw [Bus.read, if_neg hne, BitVec.allOnes_and, h.read k hk]

theorem Scans.answers (h : Scans lo cur b s X X' s') (hf : (dev, fn, c) ∈ X.own) :
    Answers X' dev fn c := by
  induction h with
  | nil => cases hf
  | func hplace hbridge hrest ih =>
    cases hf with
    | head => exact .head hplace (entered_touches _ _ _ _ _) hrest _
    | tail _ hf =>
      have hpos := (hrest.formed.own_pos hf).1
      exact (ih hf).behind (fun he => by omega) _ _
  | bridge hplace hbridge hreset hle hbelow hrest _ ih =>
    cases hf with
    | head => exact .head hplace (closed_touches _ _ _ _ _ _) hrest _
    | tail _ hf =>
      have hpos := (hrest.formed.own_pos hf).1
      exact (ih hf).behind (fun he => by omega) _ _

theorem Scans.read_none (h : Scans lo cur b s X X' s') (hno : ∀ c, (dev, fn, c) ∉ X.own) (k : Nat) :
    X'.read dev fn k .type0 = BitVec.allOnes 32 := by
  induction h with
  | nil => rfl
  | func hplace hbridge hrest ih =>
    rw [Bus.read, ih fun c hc => hno c (List.mem_cons_of_mem _ hc), BitVec.and_allOnes]
    apply if_neg
    rintro ⟨rfl, rfl⟩
    exact hno _ List.mem_cons_self
  | bridge hplace hbridge hreset hle hbelow hrest _ ih =>
    rw [Bus.read, ih fun c hc => hno c (List.mem_cons_of_mem _ hc), BitVec.and_allOnes]
    apply if_neg
    rintro ⟨rfl, rfl⟩
    exact hno _ List.mem_cons_self

theorem Answers.header (h : Answers X dev fn c) (hdev : dev < 32) (hfn : fn < 8) :
    pciCfgRead16 (hostAccess 0#8 dev fn) X 0x00 = vendorId c ∧
      pciCfgRead8 (hostAccess 0#8 dev fn) X 0x0E = headerType c := by
  have hread (reg : Nat) : (hostAccess 0#8 dev fn).read32 X reg =
      X.read dev fn (dword reg) .type0 := hostAccess_read32 X 0#8 hdev hfn
  constructor
  · rw [pciCfgRead16, hread, h.read _ (by decide)]
    rfl
  · rw [pciCfgRead8, hread, h.read _ (by decide)]
    rfl

/-- What is behind a host bridge, with legal registers and BARs of any sizes that are powers of
two. -/
structure Population extends SizedTopology where
  legal : ∀ f ∈ bus.functions 0 1, Legal f.2

/-- What the installer says of the function at `loc`: only a type-0 function has assigned
addresses. -/
inductive Installed (X : Bus) (out : List Line) (loc : Loc) : Option Node → Prop where
  | absent : Installed X out loc none
  | plain (node : Node) (h : node.assigned = []) : Installed X out loc (some node)
  | type0 (c : Config) (hf : (loc.dev, loc.fn, c) ∈ X.own)
      (hkind : headerType c &&& 0x7F#8 = 0x00#8) :
      Installed X out loc (some (nodeFor loc ((assignments out).filter (·.loc = loc))))

theorem Bus.arrivals_allot (X : Bus) (hf : f ∈ X.arrivals b n a)
    (hr : r ∈ (Pci.allot f.loc (seenBars f.cfg) f.alloc).1) : r ∈ (X.allot seenBars b n a).1 := by
  induction X generalizing n a with
  | nil => cases hf
  | cons d e c below rest _ ih =>
    rw [arrivals] at hf
    rw [allot]
    split_ifs at hf ⊢
    · cases hf with
      | head => exact List.mem_append_left _ hr
      | tail _ hf => exact List.mem_append_right _ (List.mem_append_right _ (ih hf))
    · cases hf with
      | head => exact List.mem_append_left _ hr
      | tail _ hf => exact List.mem_append_right _ (ih hf)

/-- The ranges that the walker reports are those due to the BARs, drifted. -/
theorem Scans.drifts {t : SizedTopology} (hfits : Fits t)
    (h : Scans 0 none 0 Scan.reset t.bus X s) : Drifts false (t.bus.ownedBars 0 1)
      (t.bus.allot functionBars 0 1 Alloc.reset).1 (ranges s.out) := by
  rw [h.ranges_eq t]
  exact (t.bus.drifts hfits.allSmall (t.seenBars_eq hfits.small) (Lags.refl _)
    Alloc.reset_inRegion ((t.bus.inRegion_iff hfits.allSmall).2 hfits)).1

theorem Scans.memory_inRegion {t : SizedTopology} (hfits : Fits t)
    (h : Scans 0 none 0 Scan.reset t.bus X s) (hr : r ∈ ranges s.out) (hmem : r.space ≠ .io) :
    r.InRegion :=
  (t.bus.inRegion_iff hfits.allSmall).2 hfits r (((h.drifts hfits).mem_iff hmem).1 hr)

theorem Fits.apart {t : SizedTopology} (hfits : Fits t) :
    (t.bus.allot functionBars 0 1 Alloc.reset).1.Pairwise fun r r' =>
      r.space = r'.space → r.stop ≤ r'.base := by
  have hin := (t.bus.inRegion_iff hfits.allSmall).2 hfits
  have hspace := (t.bus.fills hfits.allSmall Alloc.reset_inRegion).apart hin
  simp only [ofSpace, List.pairwise_filter, decide_eq_true_eq] at hspace
  apply ((hspace .mem).and ((hspace .pref).and (hspace .io))).imp
  rintro a b ⟨hmem, hpref, hio⟩ heq
  cases hsa : a.space with
  | mem => exact hmem hsa (heq.symm.trans hsa)
  | pref => exact hpref hsa (heq.symm.trans hsa)
  | io => exact hio hsa (heq.symm.trans hsa)

theorem Fits.describable {t : Population} (hfits : Fits t.toSizedTopology)
    (h : Scans 0 none 0 Scan.reset t.bus X s) (hf : f ∈ t.bus.arrivals 0 1 Alloc.reset)
    (hkind : headerType f.cfg &&& 0x7F#8 = 0x00#8) : Describable f.loc f.cfg f.alloc := by
  constructor
  · exact hfits.small _ (Bus.arrivals_functions t.bus hf)
  · intro rom hrom hzero
    have hspace : rom.space = .mem := romBar_space hrom
    have hseen : seenBars f.cfg = seenFrom f.cfg 6 6 0 ++ [rom] := by
      rw [seenBars, (numBars_type0 hkind).1, (numBars_type0 hkind).2]
      exact congrArg (seenFrom f.cfg 6 6 0 ++ Option.toList ·) hrom
    have hbase : (⟨f.loc, rom.offset, .mem, 0, rom.size⟩ : Range) ∈
        (allot f.loc (seenBars f.cfg) f.alloc).1 := by
      rw [hseen, allot_append]
      apply List.mem_append_right
      rw [allot, hspace]
      dsimp only [Alloc.next]
      rw [hzero]
      exact List.mem_cons_self
    have hin := h.memory_inRegion hfits
      (h.ranges_eq t.toSizedTopology ▸ Bus.arrivals_allot t.bus hf hbase)
      (fun hio : Space.mem = .io => absurd hio (by decide))
    have hlow : regionStart .mem ≤ 0 := hin.1
    exact absurd hlow (by decide)

theorem Scans.installs {t : Population} (hfits : Fits t.toSizedTopology)
    (h : Scans 0 none 0 Scan.reset t.bus X s) (hf : (dev, fn, c) ∈ t.bus.own)
    (hkind : headerType c &&& 0x7F#8 = 0x00#8) :
    installOneDevice (hostAccess 0#8 dev fn) ⟨0#8, dev, fn⟩ X =
      (some (nodeFor ⟨0#8, dev, fn⟩
        ((assignments s.out).filter (·.loc = ⟨0#8, dev, fn⟩))), X) := by
  obtain ⟨a, ha⟩ := Bus.own_arrivals t.bus hf Alloc.reset
  exact (h.treeAgrees_iff ⟨t.toTopology, t.legal⟩ ha hkind).2 (hfits.describable h ha hkind)

theorem assignedLoop_none (acc : CfgAccess σ) (loc : Loc) (n i : Nat) (h : t.present = 0#8) :
    assignedLoop acc loc n i t = t := by
  induction n generalizing i with
  | zero => rfl
  | succ n ih =>
    have hbit : t.present.getLsbD i = false := by rw [h, BitVec.getLsbD_zero]
    rw [assignedLoop, assignedStep, hbit, if_neg Bool.false_ne_true]
    split_ifs
    · exact ih (i + 1)
    · rfl

theorem setAssignedAddresses_none (acc : CfgAccess σ) (loc : Loc) (s : σ) :
    setAssignedAddresses acc loc 0#8 s = ⟨s, [], 0#8⟩ := by
  have hrom : (0#8 : BitVec 8) &&& 0x80#8 = 0#8 := by decide
  rw [setAssignedAddresses, assignedLoop_none acc loc 6 0 rfl, assignedRom]
  exact if_pos hrom

theorem installOneDevice_plain (acc : CfgAccess σ) (loc : Loc)
    (hvendor : pciCfgRead16 acc s 0x00 ≠ 0xFFFF#16)
    (hkind : pciCfgRead8 acc s 0x0E &&& 0x7F#8 ≠ 0x00#8) :
    installOneDevice acc loc s =
      (some ⟨[⟨physhi loc 0#32 0#32 0, 0#32, 0#32, 0#32, 0#32⟩], []⟩, s) := by
  simp only [installOneDevice, if_neg hvendor, setRegProp, if_neg hkind,
    setAssignedAddresses_none]

theorem Scans.installed {t : Population} (hfits : Fits t.toSizedTopology)
    (h : Scans 0 none 0 Scan.reset t.bus X s) (hdev : dev < 32) (hfn : fn < 8) :
    ∃ node, installOneDevice (hostAccess 0#8 dev fn) ⟨0#8, dev, fn⟩ X = (node, X) ∧
      Installed t.bus s.out ⟨0#8, dev, fn⟩ node := by
  by_cases hf : ∃ c, (dev, fn, c) ∈ t.bus.own
  · obtain ⟨c, hf⟩ := hf
    by_cases hkind : headerType c &&& 0x7F#8 = 0x00#8
    · exact ⟨_, h.installs hfits hf hkind, .type0 c hf hkind⟩
    · have hanswers := h.answers hf
      obtain ⟨hvendor, hheader⟩ := hanswers.header hdev hfn
      exact ⟨_, installOneDevice_plain _ _ (hvendor ▸ hanswers.vendor) (hheader ▸ hkind),
        .plain _ rfl⟩
  · refine ⟨none, ?_, .absent⟩
    have hones := h.read_none (fun c hc => hf ⟨c, hc⟩) (dword 0x00)
    have hvendor : pciCfgRead16 (hostAccess 0#8 dev fn) X 0x00 = 0xFFFF#16 := by
      rw [pciCfgRead16, hostAccess_read32 X 0#8 hdev hfn]
      exact (congrArg (halfOf · 0) hones).trans (by decide)
    rw [installOneDevice, if_pos hvendor]

/-- The number of functions that the installer tries in device `dev`. -/
def functionsAt (root : Bus) (dev : Nat) : Nat :=
  if pciCfgRead16 (hostAccess 0#8 dev 0) root 0x00 = 0xFFFF#16 then 0
  else if pciCfgRead8 (hostAccess 0#8 dev 0) root 0x0E &&& 0x80#8 ≠ 0#8 then 8
  else 1

theorem functionsAt_le (root : Bus) (dev : Nat) : functionsAt root dev ≤ 8 := by
  rw [functionsAt]
  split_ifs <;> decide

/-- The node of the function `dev.fn`, if there is one. -/
def childAt (root : Bus) (dev fn : Nat) : List (Loc × Node) :=
  (installOneDevice (hostAccess 0#8 dev fn) ⟨0#8, dev, fn⟩ root).1.toList.map
    fun node => (⟨0#8, dev, fn⟩, node)

def childrenAt (root : Bus) (dev : Nat) : List (Loc × Node) :=
  (List.range (functionsAt root dev)).flatMap (childAt root dev)

theorem mem_childAt : child ∈ childAt root dev fn ↔ child.1 = ⟨0#8, dev, fn⟩ ∧
    (installOneDevice (hostAccess 0#8 dev fn) ⟨0#8, dev, fn⟩ root).1 = some child.2 := by
  obtain ⟨loc, node⟩ := child
  rw [childAt, List.mem_map]
  constructor
  · rintro ⟨node', hnode, heq⟩
    obtain ⟨hloc, rfl⟩ := Prod.mk.inj heq
    exact ⟨hloc.symm, Option.mem_toList.1 hnode⟩
  · rintro ⟨hloc, hnode⟩
    exact ⟨node, Option.mem_toList.2 hnode, Prod.ext hloc.symm rfl⟩

theorem mem_childrenAt : child ∈ childrenAt root dev ↔
    ∃ fn, fn < functionsAt root dev ∧ child ∈ childAt root dev fn := by
  rw [childrenAt, List.mem_flatMap]
  simp only [List.mem_range]

theorem children_apart (root : Bus) :
    ((List.range 32).flatMap (childrenAt root)).Pairwise fun x y => x.1 ≠ y.1 := by
  apply List.pairwise_flatMap.2
  constructor
  · intro dev _
    apply List.pairwise_flatMap.2
    constructor
    · intro fn _
      rw [childAt]
      cases (installOneDevice (hostAccess 0#8 dev fn) ⟨0#8, dev, fn⟩ root).1 with
      | none => exact List.Pairwise.nil
      | some node => exact List.pairwise_singleton _ _
    · apply List.nodup_range.imp
      intro fn fn' hne x hx y hy he
      rw [(mem_childAt.1 hx).1, (mem_childAt.1 hy).1] at he
      exact hne (congrArg Loc.fn he)
  · apply List.nodup_range.imp
    intro dev dev' hne x hx y hy he
    obtain ⟨fn, -, hx⟩ := mem_childrenAt.1 hx
    obtain ⟨fn', -, hy⟩ := mem_childrenAt.1 hy
    rw [(mem_childAt.1 hx).1, (mem_childAt.1 hy).1] at he
    exact hne (congrArg Loc.dev he)

section

variable {t : Population} (hfits : Fits t.toSizedTopology)
  (h : Scans 0 none 0 Scan.reset t.bus X s)

include hfits h

theorem Scans.walkBus_eq : walkBus X 0#8 = ((List.range 32).flatMap (childrenAt X), X) := by
  rw [walkBus, foldl_collects (f := childrenAt X), List.nil_append]
  intro dev hdev acc
  have hfunctions (n : Nat) (hn : n ≤ 8) : (List.range n).foldl (installFunction 0#8 dev) (acc, X) =
      (acc ++ (List.range n).flatMap (childAt X dev), X) := by
    apply foldl_collects
    intro fn hfn acc'
    obtain ⟨node, hinstall, -⟩ := h.installed hfits (List.mem_range.1 hdev)
      (Nat.lt_of_lt_of_le (List.mem_range.1 hfn) hn)
    rw [installFunction, childAt, hinstall]
  rw [installDevice, childrenAt, functionsAt]
  dsimp only
  split_ifs
  · rw [List.range_zero, List.flatMap_nil, List.append_nil]
  · exact hfunctions 8 (Nat.le_refl 8)
  · exact hfunctions 1 (by decide)

theorem Scans.mem_children (hchild : child ∈ (walkBus X 0#8).1) :
    Installed t.bus s.out child.1 (some child.2) ∧ child.1.bus = 0#8 := by
  rw [h.walkBus_eq hfits] at hchild
  obtain ⟨dev, hdev, hchild⟩ := List.mem_flatMap.1 hchild
  obtain ⟨fn, hfn, hchild⟩ := mem_childrenAt.1 hchild
  obtain ⟨hloc, hnode⟩ := mem_childAt.1 hchild
  obtain ⟨node, hinstall, hinstalled⟩ := h.installed hfits (List.mem_range.1 hdev)
    (Nat.lt_of_lt_of_le hfn (functionsAt_le X dev))
  rw [hinstall] at hnode
  obtain rfl := hnode
  rw [hloc]
  exact ⟨hinstalled, rfl⟩

theorem Scans.exists_child (hf : (dev, fn, c) ∈ t.bus.own)
    (hkind : headerType c &&& 0x7F#8 = 0x00#8) :
    (⟨0#8, dev, fn⟩, nodeFor ⟨0#8, dev, fn⟩
      ((assignments s.out).filter (·.loc = ⟨0#8, dev, fn⟩))) ∈ (walkBus X 0#8).1 := by
  obtain ⟨-, hdev, hfn⟩ := t.formed.own_pos hf
  have hat : fn < functionsAt X dev := by
    obtain rfl | hcur | ⟨c', hc', hmulti⟩ := t.formed.first hf
    · have hanswers := h.answers hf
      obtain ⟨hvendor, -⟩ := hanswers.header hdev hfn
      rw [functionsAt, if_neg (hvendor ▸ hanswers.vendor)]
      split_ifs <;> decide
    · cases hcur
    · have hanswers := h.answers hc'
      obtain ⟨hvendor, hheader⟩ := hanswers.header hdev (by decide)
      have hmulti' : headerType c' &&& 0x80#8 ≠ 0#8 := bne_iff_ne.1 hmulti
      rw [functionsAt, if_neg (hvendor ▸ hanswers.vendor), hheader, if_pos hmulti']
      exact hfn
  rw [h.walkBus_eq hfits]
  apply List.mem_flatMap.2
  refine ⟨dev, List.mem_range.2 hdev, mem_childrenAt.2 ⟨fn, hat, mem_childAt.2 ⟨rfl, ?_⟩⟩⟩
  rw [h.installs hfits hf hkind]

end

theorem getLsbD_7 (h : 3 ≤ i) : (7#32).getLsbD i = false := by
  rw [show (7#32) = BitVec.ofNat 32 (2 ^ 3 - 1) from rfl, BitVec.getLsbD_ofNat,
    Nat.testBit_two_pow_sub_one, decide_eq_false (Nat.not_lt.2 h), Bool.and_false]

theorem physhiMk_space (n p ss bus dev func reg : Word) :
    physhiMk n p ss bus dev func reg >>> 24 &&& 7#32 = ss &&& 7#32 := by
  apply BitVec.eq_of_getLsbD_eq
  intro i hi
  by_cases h3 : i < 3
  · interval_cases i <;> simp [physhiMk]
  · rw [BitVec.getLsbD_and, BitVec.getLsbD_and, getLsbD_7 (Nat.not_lt.1 h3), Bool.and_false,
      Bool.and_false]

theorem isIoSpace_physhi (a : Assignment) : isIoSpace a.physhi = decide (a.space = .io) := by
  rw [isIoSpace, Assignment.physhi, physhi, physhiMk_space]
  cases a.space <;> cases a.is64 <;> rfl

theorem isIoSpace_io : isIoSpace (physhiMk 0#32 0#32 1#32 0#32 0#32 0#32 0#32) = true := by decide

theorem isIoSpace_mem : isIoSpace (physhiMk 0#32 0#32 2#32 0#32 0#32 0#32 0#32) = false := by
  decide

theorem cells_zero (w : Word) : cells 0#32 w = w.toNat := Nat.zero_add _

/-- Where the CPU sees a range, if it sees it at all. -/
def cpuRange (ioCpu : Word) (a : Assignment) : CpuRange :=
  ⟨if a.space = .io then ioCpu.toNat + a.base.toNat else a.base.toNat, a.size.toNat⟩

section

variable {ioCpu ioSize memCpu memSize : Word}

theorem holds_iff (hw : w ∈ createPciHostPackage ioCpu ioSize memCpu memSize) (a : Assignment) :
    w.Holds a.assignedEntry ↔
      isIoSpace w.physhi = decide (a.space = .io) ∧ w.physlo.toNat ≤ a.base.toNat ∧
        a.base.toNat + a.size.toNat ≤ w.physlo.toNat + w.sizelo.toNat := by
  have hcells : w.physmid = 0#32 ∧ w.sizehi = 0#32 := by
    obtain rfl | hw := List.mem_cons.1 hw
    · exact ⟨rfl, rfl⟩
    · obtain rfl := List.mem_singleton.1 hw
      exact ⟨rfl, rfl⟩
  have hbase : cells a.assignedEntry.physmid a.assignedEntry.physlo = a.base.toNat :=
    cells_zero a.base
  have hsize : cells a.assignedEntry.sizehi a.assignedEntry.sizelo = a.size.toNat :=
    cells_zero a.size
  have hio : isIoSpace a.assignedEntry.physhi = decide (a.space = .io) := isIoSpace_physhi a
  constructor
  · rintro ⟨hspace, hle, hstop⟩
    rw [hbase, hcells.1, cells_zero] at hle
    rw [hbase, hsize, hcells.1, hcells.2, cells_zero, cells_zero] at hstop
    exact ⟨hspace.symm.trans hio, hle, hstop⟩
  · rintro ⟨hspace, hle, hstop⟩
    refine ⟨hio.trans hspace.symm, ?_, ?_⟩
    · rwa [hbase, hcells.1, cells_zero]
    · rwa [hbase, hsize, hcells.1, hcells.2, cells_zero, cells_zero]

theorem exists_holds_iff (a : Assignment) :
    (∃ w ∈ createPciHostPackage ioCpu ioSize memCpu memSize, w.Holds a.assignedEntry) ↔
      if a.space = .io then a.base.toNat + a.size.toNat ≤ ioSize.toNat
      else memCpu.toNat ≤ a.base.toNat ∧
        a.base.toNat + a.size.toNat ≤ memCpu.toNat + memSize.toNat := by
  constructor
  · rintro ⟨w, hw, hholds⟩
    obtain ⟨hspace, hle, hstop⟩ := (holds_iff hw a).1 hholds
    obtain rfl | hw := List.mem_cons.1 hw
    · have hio : a.space = .io := of_decide_eq_true (hspace.symm.trans isIoSpace_io)
      rw [if_pos hio]
      exact hstop.trans_eq (Nat.zero_add _)
    · obtain rfl := List.mem_singleton.1 hw
      have hio : ¬ a.space = .io := of_decide_eq_false (hspace.symm.trans isIoSpace_mem)
      rw [if_neg hio]
      exact ⟨hle, hstop⟩
  · intro h
    by_cases hio : a.space = .io
    · rw [if_pos hio] at h
      have hmem : (⟨physhiMk 0#32 0#32 1#32 0#32 0#32 0#32 0#32, 0#32, 0#32, ioCpu, 0#32, ioSize⟩ :
          RangesEntry) ∈ createPciHostPackage ioCpu ioSize memCpu memSize := List.mem_cons_self
      refine ⟨_, hmem, (holds_iff hmem a).2 ⟨?_, Nat.zero_le _, ?_⟩⟩
      · rw [decide_eq_true hio]
        exact isIoSpace_io
      · exact h.trans_eq (Nat.zero_add _).symm
    · rw [if_neg hio] at h
      have hmem : (⟨physhiMk 0#32 0#32 2#32 0#32 0#32 0#32 0#32, 0#32, memCpu, memCpu, 0#32,
          memSize⟩ : RangesEntry) ∈ createPciHostPackage ioCpu ioSize memCpu memSize :=
        List.mem_cons_of_mem _ (List.mem_singleton_self _)
      refine ⟨_, hmem, (holds_iff hmem a).2 ⟨?_, h.1, h.2⟩⟩
      rw [decide_eq_false hio]
      exact isIoSpace_mem

theorem translate_eq {a : Assignment}
    (h : translate (createPciHostPackage ioCpu ioSize memCpu memSize) a.assignedEntry = some r) :
    r = cpuRange ioCpu a := by
  obtain ⟨w, hfind, rfl⟩ := Option.map_eq_some_iff.1 h
  have hw := List.mem_of_find?_eq_some hfind
  have hholds : decide (w.Holds a.assignedEntry) = true :=
    List.find?_some (p := fun w => decide (RangesEntry.Holds w a.assignedEntry)) hfind
  obtain ⟨hspace, hle, hstop⟩ := (holds_iff hw a).1 (of_decide_eq_true hholds)
  have hbase : cells a.assignedEntry.physmid a.assignedEntry.physlo = a.base.toNat :=
    cells_zero a.base
  have hsize : cells a.assignedEntry.sizehi a.assignedEntry.sizelo = a.size.toNat :=
    cells_zero a.size
  rw [hbase, hsize, cpuRange]
  obtain rfl | hw := List.mem_cons.1 hw
  · have hio : a.space = .io := of_decide_eq_true (hspace.symm.trans isIoSpace_io)
    rw [if_pos hio, cells_zero]
    exact congrArg (fun n => CpuRange.mk (ioCpu.toNat + n) a.size.toNat) (Nat.sub_zero _)
  · obtain rfl := List.mem_singleton.1 hw
    have hio : ¬ a.space = .io := of_decide_eq_false (hspace.symm.trans isIoSpace_mem)
    rw [if_neg hio, cells_zero]
    exact congrArg (CpuRange.mk · _) (Nat.add_sub_cancel' hle)

end

/-- Two ranges of one space do not overlap. -/
def Assignment.Apart (a b : Assignment) : Prop :=
  a.space = b.space → a.range.stop ≤ b.range.base ∨ b.range.stop ≤ a.range.base

theorem Range.InRegion.mem (h : Range.InRegion r) (hmem : r.space ≠ .io) :
    0x80000000 ≤ r.base ∧ r.stop ≤ 0xC0000000 := by
  obtain ⟨hlo, hhi⟩ := h
  cases hspace : r.space with
  | mem =>
    rw [hspace] at hlo hhi
    exact ⟨hlo, hhi.trans (by decide)⟩
  | pref =>
    rw [hspace] at hlo hhi
    exact ⟨Nat.le_trans (by decide) hlo, hhi⟩
  | io => exact absurd hspace hmem

theorem Range.InRegion.io (h : Range.InRegion r) (hio : r.space = .io) :
    0x1000 ≤ r.base ∧ r.stop ≤ 0x10000 := by
  obtain ⟨hlo, hhi⟩ := h
  rw [hio] at hlo hhi
  exact ⟨hlo, hhi⟩

theorem Assignment.Apart.memory {a b : Assignment} (h : a.Apart b) (ha : a.range.InRegion)
    (hb : b.range.InRegion) (hmem : a.space ≠ .io) (hmem' : b.space ≠ .io) :
    a.range.stop ≤ b.range.base ∨ b.range.stop ≤ a.range.base := by
  have hbase : regionStart a.space ≤ a.range.base := ha.1
  have hstop : a.range.stop ≤ regionStop a.space := ha.2
  have hbase' : regionStart b.space ≤ b.range.base := hb.1
  have hstop' : b.range.stop ≤ regionStop b.space := hb.2
  cases hsa : a.space with
  | mem =>
    cases hsb : b.space with
    | mem => exact h (hsa.trans hsb.symm)
    | pref =>
      rw [hsa] at hstop
      rw [hsb] at hbase'
      exact .inl (hstop.trans hbase')
    | io => exact absurd hsb hmem'
  | pref =>
    cases hsb : b.space with
    | mem =>
      rw [hsa] at hbase
      rw [hsb] at hstop'
      exact .inr (hstop'.trans hbase)
    | pref => exact h (hsa.trans hsb.symm)
    | io => exact absurd hsb hmem'
  | io => exact absurd hsa hmem

theorem cpuRange_apart {a b : Assignment} (hcpu : 0xC0000000 ≤ ioCpu.toNat) (ha : a.range.InRegion)
    (hb : b.range.InRegion) (h : a.Apart b) : (cpuRange ioCpu a).Apart (cpuRange ioCpu b) := by
  have hstop (a : Assignment) : a.range.stop = a.base.toNat + a.size.toNat := rfl
  rw [CpuRange.Apart, cpuRange, cpuRange]
  by_cases hio : a.space = .io
  · rw [if_pos hio]
    by_cases hio' : b.space = .io
    · rw [if_pos hio']
      have hsame : a.base.toNat + a.size.toNat ≤ b.base.toNat ∨
          b.base.toNat + b.size.toNat ≤ a.base.toNat := h (hio.trans hio'.symm)
      dsimp only
      omega
    · rw [if_neg hio']
      have hhigh := (hb.mem hio').2
      rw [hstop] at hhigh
      dsimp only
      omega
  · rw [if_neg hio]
    by_cases hio' : b.space = .io
    · rw [if_pos hio']
      have hhigh := (ha.mem hio).2
      rw [hstop] at hhigh
      dsimp only
      omega
    · rw [if_neg hio']
      exact h.memory ha hb hio hio'

/-- The function at `loc` is one of the bus itself, with a type-0 header. -/
def Bus.Described (X : Bus) (loc : Loc) : Prop :=
  loc.bus = 0#8 ∧ ∃ c, (loc.dev, loc.fn, c) ∈ X.own ∧ headerType c &&& 0x7F#8 = 0x00#8

/-- No I/O BAR of such a function decodes 16 address bits only or comes, in the order of the walk,
behind one that does. -/
def IoSized (X : Bus) : Prop :=
  ∀ l q l', X.ownedBars 0 1 = l ++ q :: l' → X.Described q.loc → q.bar.space = .io →
    ∀ p ∈ l ++ [q], ¬ Decodes16 p.cfg p.bar

/-- Ranges that are reported for described functions are apart. -/
def ApartIn (X : Bus) (a b : Assignment) : Prop :=
  X.Described a.loc → X.Described b.loc → a.Apart b

instance : Std.Symm (ApartIn X) := ⟨fun _ _ h hb ha heq => (h ha hb heq.symm).symm⟩

theorem forall₂_pairwise {R : α → β → Prop} {P : α → α → Prop} {Q : β → β → Prop}
    (h : List.Forall₂ R l l') (hl : l.Pairwise P)
    (hPQ : ∀ a a' b b', R a b → R a' b' → P a a' → Q b b') : l'.Pairwise Q := by
  induction h with
  | nil => exact .nil
  | @cons a b l l' hab hrest ih =>
    obtain ⟨ha, hl⟩ := List.pairwise_cons.1 hl
    refine List.pairwise_cons.2 ⟨fun b' hb' => ?_, ih hl⟩
    obtain ⟨i, hi, rfl⟩ := List.getElem_of_mem hb'
    have hi' : i < l.length := hrest.length_eq ▸ hi
    exact hPQ a l[i] b _ hab (hrest.get hi' hi) (ha _ (List.getElem_mem hi'))

section

variable {t : Population} (hfits : Fits t.toSizedTopology)
  (h : Scans 0 none 0 Scan.reset t.bus X s)

include hfits h

/-- An entry of `assigned-addresses` is a range that the walker has reported for that function. -/
theorem Scans.mem_assigned (hchild : child ∈ (walkBus X 0#8).1) (he : e ∈ child.2.assigned) :
    ∃ a ∈ assignments s.out, a.loc = child.1 ∧ e = a.assignedEntry ∧ t.bus.Described a.loc := by
  obtain ⟨hinstalled, hbus⟩ := h.mem_children hfits hchild
  generalize hnode : child.2 = node at hinstalled he
  cases hinstalled with
  | plain node hnone =>
    rw [hnone] at he
    cases he
  | type0 c hf hkind =>
    obtain ⟨a, ha, rfl⟩ := List.mem_map.1 he
    obtain ⟨ha, hloc⟩ := List.mem_filter.1 ha
    have hloc' : a.loc = child.1 := of_decide_eq_true hloc
    exact ⟨a, ha, hloc', rfl, hloc' ▸ ⟨hbus, c, hf, hkind⟩⟩

/-- Where the I/O BARs are sized right, the described functions get the ranges that are due. -/
theorem Scans.described (hsized : IoSized t.bus) :
    List.Forall₂ (fun r r' => r'.loc = r.loc ∧ r'.space = r.space ∧
      (t.bus.Described r.loc ∨ r.space ≠ .io → r' = r))
      (t.bus.allot functionBars 0 1 Alloc.reset).1 (ranges s.out) := by
  apply (h.drifts hfits).keeps
  intro l q l' hl hq hio
  exact ⟨rfl, fun p hp hshort => hsized l q l' hl hq hio p hp (of_decide_eq_true hshort)⟩

theorem Scans.described_inRegion (hsized : IoSized t.bus) (ha : a ∈ assignments s.out)
    (hd : t.bus.Described a.loc) : a.range.InRegion := by
  have hmem : a.range ∈ ranges s.out := by
    rw [ranges_eq_map]
    exact List.mem_map_of_mem ha
  obtain ⟨i, hi, hr⟩ := List.getElem_of_mem hmem
  have hdue := h.described hfits hsized
  have hi' : i < (t.bus.allot functionBars 0 1 Alloc.reset).1.length := hdue.length_eq ▸ hi
  obtain ⟨hloc, -, hsame⟩ := hdue.get hi' hi
  simp only [List.get_eq_getElem, hr] at hloc hsame
  rw [hsame (.inl (hloc ▸ hd))]
  exact (t.bus.inRegion_iff hfits.allSmall).2 hfits _ (List.getElem_mem hi')

theorem Scans.assignments_apart (hsized : IoSized t.bus) :
    (assignments s.out).Pairwise (ApartIn t.bus) := by
  have hout := forall₂_pairwise (h.described hfits hsized) hfits.apart
    (Q := fun r r' => t.bus.Described r.loc → t.bus.Described r'.loc → r.space = r'.space →
      r.stop ≤ r'.base) (fun r r₁ r' r₁' hr hr₁ hapart hd hd' heq => by
        rw [hr.2.2 (.inl (hr.1 ▸ hd)), hr₁.2.2 (.inl (hr₁.1 ▸ hd'))] at heq ⊢
        exact hapart heq)
  rw [ranges_eq_map, List.pairwise_map] at hout
  exact hout.imp fun hapart hd hd' heq => .inl (hapart hd hd' heq)

theorem Scans.assigned_apart (hsized : IoSized t.bus) (ranges : List RangesEntry) :
    (HostPackage.assigned ⟨ranges, (walkBus X 0#8).1⟩).Pairwise fun e e' =>
      ∃ a b : Assignment, a.range.InRegion ∧ b.range.InRegion ∧ e = a.assignedEntry ∧
        e' = b.assignedEntry ∧ a.Apart b := by
  have hout := h.assignments_apart hfits hsized
  have hin {a : Assignment} := h.described_inRegion (a := a) hfits hsized
  rw [HostPackage.assigned]
  dsimp only
  apply List.pairwise_flatMap.2
  constructor
  · intro child hchild
    obtain ⟨hinstalled, hbus⟩ := h.mem_children hfits hchild
    generalize hnode : child.2 = node at hinstalled
    cases hinstalled with
    | plain node hnone =>
      rw [hnone]
      exact List.Pairwise.nil
    | type0 c hf hkind =>
      have hd : t.bus.Described child.1 := ⟨hbus, c, hf, hkind⟩
      apply List.pairwise_map.2
      apply (hout.sublist List.filter_sublist).imp_of_mem
      intro a b ha hb hab
      obtain ⟨ha, hloc⟩ := List.mem_filter.1 ha
      obtain ⟨hb, hloc'⟩ := List.mem_filter.1 hb
      have hda : t.bus.Described a.loc := of_decide_eq_true hloc ▸ hd
      have hdb : t.bus.Described b.loc := of_decide_eq_true hloc' ▸ hd
      exact ⟨a, b, hin ha hda, hin hb hdb, rfl, rfl, hab hda hdb⟩
  · have hwalk : (walkBus X 0#8).1 = (List.range 32).flatMap (childrenAt X) :=
      congrArg Prod.fst (h.walkBus_eq hfits)
    have hchildren := children_apart X
    rw [← hwalk] at hchildren
    apply hchildren.imp_of_mem
    intro x y hx hy hne e he e' he'
    obtain ⟨a, ha, haloc, rfl, hda⟩ := h.mem_assigned hfits hx he
    obtain ⟨b, hb, hbloc, rfl, hdb⟩ := h.mem_assigned hfits hy he'
    have hab : a ≠ b := by
      rintro rfl
      exact hne (haloc.symm.trans hbloc)
    exact ⟨a, b, hin ha hda, hin hb hdb, rfl, rfl, hout.forall ha hb hab hda hdb⟩

theorem Scans.mem_entries {rs : List RangesEntry}
    (he : e ∈ HostPackage.assigned ⟨rs, (walkBus X 0#8).1⟩) :
    ∃ a ∈ assignments s.out, e = a.assignedEntry ∧ t.bus.Described a.loc := by
  rw [HostPackage.assigned] at he
  dsimp only at he
  obtain ⟨child, hchild, he⟩ := List.mem_flatMap.1 he
  obtain ⟨a, ha, -, rfl, hd⟩ := h.mem_assigned hfits hchild he
  exact ⟨a, ha, rfl, hd⟩

theorem Scans.cpuRanges_apart (hsized : IoSized t.bus) (hcpu : 0xC0000000 ≤ ioCpu.toNat)
    (ioSize memCpu memSize : Word) :
    ((HostPackage.assigned ⟨createPciHostPackage ioCpu ioSize memCpu memSize,
      (walkBus X 0#8).1⟩).filterMap
        (translate (createPciHostPackage ioCpu ioSize memCpu memSize))).Pairwise
          CpuRange.Apart := by
  apply List.pairwise_filterMap.2
  apply (h.assigned_apart hfits hsized _).imp
  rintro e e' ⟨a, b, ha, hb, rfl, rfl, hab⟩ r hr r' hr'
  rw [translate_eq hr, translate_eq hr']
  exact cpuRange_apart hcpu ha hb hab

theorem Scans.exists_entry (hr : r ∈ ranges s.out) (hd : t.bus.Described r.loc)
    (rs : List RangesEntry) :
    ∃ a ∈ assignments s.out, a.range = r ∧
      a.assignedEntry ∈ HostPackage.assigned ⟨rs, (walkBus X 0#8).1⟩ := by
  obtain ⟨hbus, c, hf, hkind⟩ := hd
  rw [ranges_eq_map] at hr
  obtain ⟨a, ha, rfl⟩ := List.mem_map.1 hr
  have hloc : a.loc = ⟨0#8, a.loc.dev, a.loc.fn⟩ := by
    rw [← show a.loc.bus = 0#8 from hbus]
  have hentry : a.assignedEntry ∈ (nodeFor ⟨0#8, a.loc.dev, a.loc.fn⟩
      ((assignments s.out).filter (·.loc = ⟨0#8, a.loc.dev, a.loc.fn⟩))).assigned :=
    List.mem_map_of_mem (List.mem_filter.2 ⟨ha, decide_eq_true hloc⟩)
  refine ⟨a, ha, rfl, ?_⟩
  rw [HostPackage.assigned]
  dsimp only
  exact List.mem_flatMap.2 ⟨_, h.exists_child hfits hf hkind, hentry⟩

/-- Every memory BAR has a range, and every memory range is that of a BAR. -/
theorem Scans.memory_iff (hmem : bar.space ≠ .io) :
    (∃ r ∈ ranges s.out, r.loc = loc ∧ r.bar = bar) ↔
      ∃ c, (loc, c) ∈ t.bus.functions 0 1 ∧ bar ∈ functionBars c := by
  have hmap := Bus.map_allot t.bus functionBars 0 1 Alloc.reset
  have hiff : (loc, bar) ∈ (t.bus.allot functionBars 0 1 Alloc.reset).1.map
      (fun r => (r.loc, r.bar)) ↔ ∃ c, (loc, c) ∈ t.bus.functions 0 1 ∧ bar ∈ functionBars c := by
    rw [hmap, List.mem_flatMap]
    constructor
    · rintro ⟨f, hf, hb⟩
      obtain ⟨bar', hb', heq⟩ := List.mem_map.1 hb
      obtain ⟨rfl, rfl⟩ := Prod.mk.inj heq
      exact ⟨f.2, hf, hb'⟩
    · rintro ⟨c, hc, hb⟩
      exact ⟨_, hc, List.mem_map_of_mem hb⟩
  rw [← hiff, List.mem_map]
  constructor
  · rintro ⟨r, hr, hloc, hbar⟩
    have hspace : r.space ≠ .io := by
      rw [← hbar] at hmem
      exact hmem
    exact ⟨r, ((h.drifts hfits).mem_iff hspace).1 hr, Prod.ext hloc hbar⟩
  · rintro ⟨r, hr, heq⟩
    obtain ⟨hloc, hbar⟩ := Prod.mk.inj heq
    have hspace : r.space ≠ .io := by
      rw [← hbar] at hmem
      exact hmem
    exact ⟨r, ((h.drifts hfits).mem_iff hspace).2 hr, hloc, hbar⟩

end

/-- No function with a type-0 header has a memory BAR or an expansion ROM. -/
def NoMemory (X : Bus) : Prop :=
  ∀ dev fn c, (dev, fn, c) ∈ X.own → headerType c &&& 0x7F#8 = 0x00#8 →
    ∀ bar ∈ functionBars c, bar.space = .io

section

variable {t : Population} (hfits : Fits t.toSizedTopology)
  (h : Scans 0 none 0 Scan.reset t.bus X s)

include hfits h

theorem Scans.io_of_noMemory (hno : NoMemory t.bus) (ha : a ∈ assignments s.out)
    (hd : t.bus.Described a.loc) : a.space = .io := by
  by_contra hmem
  obtain ⟨hbus, c, hf, hkind⟩ := hd
  have hr : a.range ∈ ranges s.out := by
    rw [ranges_eq_map]
    exact List.mem_map_of_mem ha
  have hrange : ∃ r ∈ ranges s.out, r.loc = a.loc ∧ r.bar = a.range.bar := ⟨_, hr, rfl, rfl⟩
  obtain ⟨c', hc', hbar⟩ := (h.memory_iff hfits hmem).1 hrange
  have hfun : (⟨BitVec.ofNat 8 0, a.loc.dev, a.loc.fn⟩, c) ∈ t.bus.functions 0 1 :=
    Bus.own_functions t.bus hf
  have hloc : a.loc = ⟨BitVec.ofNat 8 0, a.loc.dev, a.loc.fn⟩ := by
    rw [← show a.loc.bus = BitVec.ofNat 8 0 from hbus]
  rw [← hloc] at hfun
  have hsame := List.inj_on_of_nodup_map (h.functions_nodup t.toTopology) hc' hfun rfl
  rw [(Prod.mk.inj hsame).2] at hbar
  exact hmem (hno _ _ c hf hkind _ hbar)

/-- Where every I/O range is inside the I/O window, the I/O BARs are sized right. -/
theorem Scans.ioSized_of_inside (hinside : ∀ e ∈ HostPackage.assigned
      ⟨createPciHostPackage ioCpu 0x00010000#32 memCpu memSize, (walkBus X 0#8).1⟩,
        ∃ w ∈ createPciHostPackage ioCpu 0x00010000#32 memCpu memSize, w.Holds e) :
    IoSized t.bus := by
  intro l q l' hl hd hio p hp hshort
  obtain ⟨r, hr, hloc, hspace, hstop⟩ :=
    (h.drifts hfits).escapes hl hio (.inr ⟨p, hp, decide_eq_true hshort⟩)
  obtain ⟨a, -, rfl, he⟩ := h.exists_entry hfits hr (hloc ▸ hd) _
  have hspace' : a.space = .io := hspace
  have hwindow := hinside _ he
  rw [exists_holds_iff, if_pos hspace'] at hwindow
  exact absurd hwindow (Nat.not_le.2 hstop)

theorem Scans.entry_inside (hsized : IoSized t.bus) (ha : a ∈ assignments s.out)
    (hd : t.bus.Described a.loc) (hmem : a.space ≠ .io → memCpu.toNat ≤ 0x80000000 ∧
      0xC0000000 ≤ memCpu.toNat + memSize.toNat) (hio : ioSize.toNat = 0x10000) :
    ∃ w ∈ createPciHostPackage ioCpu ioSize memCpu memSize, w.Holds a.assignedEntry := by
  have hin := h.described_inRegion hfits hsized ha hd
  rw [exists_holds_iff]
  by_cases hspace : a.space = .io
  · rw [if_pos hspace, hio]
    exact (hin.io hspace).2
  · obtain ⟨hlow, hhigh⟩ := hmem hspace
    obtain ⟨hbase, hstop⟩ := hin.mem hspace
    rw [if_neg hspace]
    exact ⟨hlow.trans hbase, hstop.trans hhigh⟩

end

theorem Scans.translatable_iff {t₀ t₁ : Population} (hfits₀ : Fits t₀.toSizedTopology)
    (hfits₁ : Fits t₁.toSizedTopology) (h₀ : Scans 0 none 0 Scan.reset t₀.bus X₀ s₀)
    (h₁ : Scans 0 none 0 Scan.reset t₁.bus X₁ s₁) :
    Translatable (installPciTree X₁ X₀) ↔
      NoMemory t₀.bus ∧ IoSized t₀.bus ∧ IoSized t₁.bus := by
  constructor
  · intro ht
    have hinside₁ := ht.inside _ List.mem_cons_self
    have hinside₀ := ht.inside _ (List.mem_cons_of_mem _ (List.mem_singleton_self _))
    refine ⟨fun dev fn c hf hkind bar hbar => ?_, h₀.ioSized_of_inside hfits₀ hinside₀,
      h₁.ioSized_of_inside hfits₁ hinside₁⟩
    · by_contra hne
      have hfun : (⟨BitVec.ofNat 8 0, dev, fn⟩, c) ∈ t₀.bus.functions 0 1 :=
        Bus.own_functions t₀.bus hf
      obtain ⟨r, hr, hloc, rfl⟩ := (h₀.memory_iff hfits₀ hne).2 ⟨c, hfun, hbar⟩
      have hd : t₀.bus.Described r.loc := by
        rw [hloc]
        exact ⟨rfl, c, hf, hkind⟩
      obtain ⟨a, -, rfl, he⟩ := h₀.exists_entry hfits₀ hr hd _
      have hpos : 0 < a.size.toNat := t₀.allPos _ hfun _ hbar
      have hhigh : a.base.toNat + a.size.toNat ≤ 0xC0000000 :=
        ((h₀.memory_inRegion hfits₀ hr hne).mem hne).2
      have hwindow := hinside₀ _ he
      have hmem : a.space ≠ .io := hne
      rw [exists_holds_iff, if_neg hmem] at hwindow
      have hlow : 0xC0000000 ≤ a.base.toNat := hwindow.1
      omega
  · rintro ⟨hno, hsized₀, hsized₁⟩
    constructor
    · intro host hhost e he
      rw [installPciTree] at hhost
      obtain rfl | hhost := List.mem_cons.1 hhost
      · obtain ⟨a, ha, rfl, hd⟩ := h₁.mem_entries hfits₁ he
        exact h₁.entry_inside hfits₁ hsized₁ ha hd (fun _ => by decide) rfl
      · obtain rfl := List.mem_singleton.1 hhost
        obtain ⟨a, ha, rfl, hd⟩ := h₀.mem_entries hfits₀ he
        exact h₀.entry_inside hfits₀ hsized₀ ha hd
          (fun hne => absurd (h₀.io_of_noMemory hfits₀ hno ha hd) hne) rfl
    · rw [installPciTree, List.flatMap_cons, List.flatMap_cons, List.flatMap_nil, List.append_nil]
      apply List.pairwise_append.2
      refine ⟨h₁.cpuRanges_apart hfits₁ hsized₁ (by decide) _ _ _,
        h₀.cpuRanges_apart hfits₀ hsized₀ (by decide) _ _ _, fun r hr r' hr' => ?_⟩
      obtain ⟨e, he, hr⟩ := List.mem_filterMap.1 hr
      obtain ⟨e', he', hr'⟩ := List.mem_filterMap.1 hr'
      obtain ⟨a, ha, rfl, hda⟩ := h₁.mem_entries hfits₁ he
      obtain ⟨b, hb, rfl, hdb⟩ := h₀.mem_entries hfits₀ he'
      have hio : b.space = .io := h₀.io_of_noMemory hfits₀ hno hb hdb
      have hhigh : b.base.toNat + b.size.toNat ≤ 0x10000 :=
        ((h₀.described_inRegion hfits₀ hsized₀ hb hdb).io hio).2
      have hin := h₁.described_inRegion hfits₁ hsized₁ ha hda
      have hcpu₁ : (0xFE000000#32).toNat = 0xFE000000 := rfl
      have hcpu₀ : (0xF8000000#32).toNat = 0xF8000000 := rfl
      rw [translate_eq hr, translate_eq hr', CpuRange.Apart, cpuRange, cpuRange, if_pos hio]
      dsimp only
      by_cases hio' : a.space = .io
      · rw [if_pos hio', hcpu₁, hcpu₀]
        omega
      · have hmem : a.base.toNat + a.size.toNat ≤ 0xC0000000 := (hin.mem hio').2
        rw [if_neg hio', hcpu₀]
        omega

theorem pciWalk_scans (t₀ t₁ : Topology) :
    ∃ depth, ∀ k, ∃ X₀ s₀ X₁ s₁, pciWalk (depth + k) t₀.bus t₁.bus = some (s₀.ctx X₀, s₁.ctx X₁) ∧
      Scans 0 none 0 Scan.reset t₀.bus X₀ s₀ ∧ Scans 0 none 0 Scan.reset t₁.bus X₁ s₁ := by
  obtain ⟨depth, hwalk⟩ := @pciWalk_satisfies t₀ t₁
    (fun ctx => ∃ X s, Scans 0 none 0 Scan.reset t₀.bus X s ∧ ctx = s.ctx X)
    (fun ctx => ∃ X s, Scans 0 none 0 Scan.reset t₁.bus X s ∧ ctx = s.ctx X)
    (fun X s h => ⟨X, s, h, rfl⟩) fun X s h => ⟨X, s, h, rfl⟩
  refine ⟨depth, fun k => ?_⟩
  obtain ⟨_, _, hrun, ⟨X₀, s₀, h₀, rfl⟩, X₁, s₁, h₁, rfl⟩ := hwalk k
  exact ⟨X₀, s₀, X₁, s₁, hrun, h₀, h₁⟩

/-- The memory window of `PCI_HOST_0` starts at 0xC0000000, but its memory ranges below; an I/O BAR
with 16 address bits is sized out of the I/O window, and full ones behind it are placed there. -/
theorem installPciTree_translatable_iff (t₀ t₁ : Population) (hfits₀ : Fits t₀.toSizedTopology)
    (hfits₁ : Fits t₁.toSizedTopology) :
    ∃ depth, ∀ k, ∃ ctx₀ ctx₁, pciWalk (depth + k) t₀.bus t₁.bus = some (ctx₀, ctx₁) ∧
      (Translatable (installPciTree ctx₁.walk.cfg ctx₀.walk.cfg) ↔
        NoMemory t₀.bus ∧ IoSized t₀.bus ∧ IoSized t₁.bus) := by
  obtain ⟨depth, hwalk⟩ := pciWalk_scans t₀.toTopology t₁.toTopology
  refine ⟨depth, fun k => ?_⟩
  obtain ⟨X₀, s₀, X₁, s₁, hrun, h₀, h₁⟩ := hwalk k
  exact ⟨_, _, hrun, h₀.translatable_iff hfits₀ hfits₁ h₁⟩

/-- A card with one memory BAR of 4 KiB. -/
def memoryCard : Config
  | 0 => ⟨0x10501AF4#32, 0#32, 0#32⟩
  | 4 => ⟨0#32, 0xFFFFF000#32, 0#32⟩
  | _ => ⟨0#32, 0#32, 0#32⟩

theorem memoryCard_sized : Sized memoryCard where
  bars i hi := by
    have hi' : i < 6 := hi
    interval_cases i <;> exact ⟨by decide, by decide⟩
  rom := ⟨by decide, by decide⟩
  barSizes :=
    .narrow (by decide) (by decide) (.inr ⟨12, by decide, by decide⟩) <|
    .narrow (by decide) (by decide) (.inl (by decide)) <|
    .narrow (by decide) (by decide) (.inl (by decide)) <|
    .narrow (by decide) (by decide) (.inl (by decide)) <|
    .narrow (by decide) (by decide) (.inl (by decide)) <|
    .narrow (by decide) (by decide) (.inl (by decide)) <| .done (by decide)
  romSize := .inl (by decide)

theorem memoryCard_legal : Legal memoryCard where
  toPlainRegs := memoryCard_sized.toPlainRegs
  slots _ :=
    .narrow (by decide) (by decide) <| .narrow (by decide) (by decide) <|
    .narrow (by decide) (by decide) <| .narrow (by decide) (by decide) <|
    .narrow (by decide) (by decide) <| .narrow (by decide) (by decide) <| .done (by decide)
  romReserved _ := by decide

def memoryCardHost : Population where
  bus := .cons 0 0 memoryCard .nil .nil
  formed := .func ⟨by decide, by decide, by decide, by decide, .inl rfl⟩ (by decide) .nil
  bridges_le := by decide
  sized f hf := List.mem_singleton.1 hf ▸ memoryCard_sized
  legal f hf := List.mem_singleton.1 hf ▸ memoryCard_legal

def bareHost : Population :=
  { emptyHost with legal := fun _ hf => absurd hf List.not_mem_nil }

theorem memoryCardHost_fits : Fits memoryCardHost.toSizedTopology := by
  intro space
  cases space <;> decide

theorem bareHost_fits : Fits bareHost.toSizedTopology := by
  intro space
  cases space <;> decide

theorem memoryCardHost_ioSized : IoSized memoryCardHost.bus := by
  intro l q l' hl _ hio
  have hq : q ∈ memoryCardHost.bus.ownedBars 0 1 := hl ▸ List.mem_append_right l List.mem_cons_self
  rw [List.mem_singleton.1 hq] at hio
  cases hio

theorem bareHost_ioSized : IoSized bareHost.bus := fun l _ _ hl => by cases l <;> cases hl

theorem memoryCard_seen : ∃ depth, ∀ k, ∃ ctx₀ ctx₁,
    pciWalk (depth + k) bareHost.bus memoryCardHost.bus = some (ctx₀, ctx₁) ∧
      Translatable (installPciTree ctx₁.walk.cfg ctx₀.walk.cfg) := by
  obtain ⟨depth, hwalk⟩ := installPciTree_translatable_iff bareHost memoryCardHost bareHost_fits
    memoryCardHost_fits
  refine ⟨depth, fun k => ?_⟩
  obtain ⟨ctx₀, ctx₁, hrun, hiff⟩ := hwalk k
  exact ⟨ctx₀, ctx₁, hrun, hiff.2 ⟨fun _ _ _ hf => absurd hf List.not_mem_nil,
    bareHost_ioSized, memoryCardHost_ioSized⟩⟩

/-- Behind `PCI_HOST_0` it gets 0x80000000..0x80000FFF, in front of the window. -/
theorem memoryCard_unseen : ∃ depth, ∀ k, ∃ ctx₀ ctx₁,
    pciWalk (depth + k) memoryCardHost.bus bareHost.bus = some (ctx₀, ctx₁) ∧
      ¬ Translatable (installPciTree ctx₁.walk.cfg ctx₀.walk.cfg) := by
  obtain ⟨depth, hwalk⟩ := pciWalk_scans memoryCardHost.toTopology bareHost.toTopology
  refine ⟨depth, fun k => ?_⟩
  obtain ⟨X₀, s₀, X₁, s₁, hrun, h₀, h₁⟩ := hwalk k
  refine ⟨_, _, hrun, fun ht => ?_⟩
  have hno := ((h₀.translatable_iff memoryCardHost_fits bareHost_fits h₁).1 ht).1
  have hbar : (⟨0x10, .mem, 4096⟩ : Bar) ∈ functionBars memoryCard := by decide
  exact absurd (hno 0 0 memoryCard List.mem_cons_self (by decide) _ hbar) (by decide)

end Pegasos2.Pci
