import Pegasos2.PciTreeAgrees

namespace Pegasos2.Pci
set_option autoImplicit true

/-- An expansion ROM register: bits 10 to 1 are reserved and read as zero. -/
structure RomReg (r : Reg) : Prop extends BarReg r romMask where
  reserved : (r.val ||| r.rw) &&& 0x7FE#32 = 0#32

theorem barAddrMask_rom (io : Bool) :
    barAddrMask io = romMask ||| (barAddrMask io &&& 0x7FE#32) := by
  cases io <;> decide

namespace RomReg

theorem val_reserved (h : RomReg r) : r.val &&& 0x7FE#32 = 0#32 := by
  have hor := h.reserved
  rw [BitVec.and_or_distrib_right] at hor
  exact (BitVec.or_eq_zero_iff.1 hor).1

theorem rw_reserved (h : RomReg r) : r.rw &&& 0x7FE#32 = 0#32 := by
  have hor := h.reserved
  rw [BitVec.and_or_distrib_right] at hor
  exact (BitVec.or_eq_zero_iff.1 hor).2

theorem write (h : RomReg r) (v : Word) : RomReg (r.write v) := by
  refine ⟨h.toBarReg.write v, ?_⟩
  have hval := h.val_reserved
  have hrw := h.rw_reserved
  apply BitVec.eq_of_getLsbD_eq
  intro i _
  rw [BitVec.getLsbD_and, BitVec.getLsbD_or, Reg.write_rw, Reg.getLsbD_write, h.w1c,
    BitVec.getLsbD_zero, Bool.false_and, Bool.not_false, Bool.and_true]
  cases hm : (0x7FE#32).getLsbD i with
  | false => rw [Bool.and_false]
  | true =>
    rw [getLsbD_of_and_eq_zero hrw hm, getLsbD_of_and_eq_zero hval hm]
    rfl

theorem mask_eq (h : RomReg r) (io : Bool) : r.rw &&& barAddrMask io = r.rw &&& romMask := by
  have hzero : r.rw &&& (barAddrMask io &&& 0x7FE#32) = 0#32 := by
    rw [BitVec.and_comm (barAddrMask io), ← BitVec.and_assoc, h.rw_reserved]
    exact BitVec.zero_and
  rw [barAddrMask_rom, BitVec.and_or_distrib_left, hzero, BitVec.or_zero]

/-- The installer may take an enabled ROM for an I/O BAR, and finds the same bits. -/
theorem barReg (h : RomReg r) (io : Bool) : BarReg r (barAddrMask io) := by
  have hzero : r.val &&& ~~~r.rw &&& (barAddrMask io &&& 0x7FE#32) = 0#32 := by
    have hval : r.val &&& 0x7FE#32 &&& (~~~r.rw &&& barAddrMask io) = 0#32 := by
      rw [h.val_reserved]
      exact BitVec.zero_and
    rw [← hval]
    ac_rfl
  refine ⟨h.w1c, ?_⟩
  rw [barAddrMask_rom, BitVec.and_or_distrib_left, h.fixed, hzero, BitVec.or_zero]

theorem treeProbe_size (h : RomReg r) :
    (treeProbe r).size = ~~~(r.rw &&& romMask) + 1#32 := by
  rw [(h.barReg (isIo r.val)).treeProbe_size, h.mask_eq]

end RomReg

/-- The range of the expansion ROM for the allocators `a`. -/
def romRange (loc : Loc) (a : Alloc) (rom : Bar) : Assignment :=
  ⟨loc, 0x30, .mem, false, BitVec.ofNat 32 rom.size, alignUp a.mem (BitVec.ofNat 32 rom.size)⟩

/-- The walker reports for the expansion ROM what the installer finds in the register. -/
theorem romStep_reported (loc : Loc) (b : Bars Config) (hr : RomReg r)
    (hcfg : b.walk.cfg 12 = r) :
    heldRom loc ((romStep funcAccess loc 0x30 b).walk.cfg 12) =
        (romBar r 0x30).map (romRange loc b.walk.alloc) ∧
      assignments (romStep funcAccess loc 0x30 b).walk.out = assignments b.walk.out ++
        ((romBar r 0x30).map (romRange loc b.walk.alloc)).toList := by
  have hprobe : pciBarProbe funcAccess b.walk.cfg 0x30 0xFFFFF800#32 =
      (probeOf r romMask, b.walk.cfg) := by
    rw [← romMask, pciBarProbe_eq b.walk.cfg (show BarReg (b.walk.cfg (dword 0x30)) romMask by
      rw [show dword 0x30 = 12 from rfl, hcfg]; exact hr.toBarReg),
      show dword 0x30 = 12 from rfl, hcfg]
  simp only [romStep, hprobe]
  by_cases hm : r.rw &&& romMask = 0#32
  · have hbar : romBar r 0x30 = none := if_pos hm
    have hsize : (treeProbe r).size = 0#32 := by
      have hone : ~~~0#32 + 1#32 = 0#32 := by decide
      rw [hr.treeProbe_size, hm, hone]
    rw [probeOf, if_pos hm, hbar, if_pos rfl, Option.map_none, heldRom, hcfg, if_pos hsize]
    exact ⟨rfl, (List.append_nil _).symm⟩
  · have hbar : romBar r 0x30 = some ⟨0x30, .mem, (~~~(r.rw &&& romMask) + 1#32).toNat⟩ := if_neg hm
    have hbase : alignUp b.walk.alloc.mem (~~~(r.rw &&& romMask) + 1#32) &&& (r.rw &&& romMask) =
        alignUp b.walk.alloc.mem (~~~(r.rw &&& romMask) + 1#32) := by
      rw [alignUp_not_add_one, BitVec.and_assoc, BitVec.and_self]
    rw [probeOf, if_neg hm, hbar, if_neg (not_add_one_eq_zero hm), Option.map_some, romRange]
    simp only [assign, BitVec.ofNat_toNat, BitVec.setWidth_eq, Bool.false_eq_true, if_false,
      funcAccess, Alloc.next]
    generalize alignUp b.walk.alloc.mem (~~~(r.rw &&& romMask) + 1#32) = base at hbase ⊢
    refine ⟨?_, assignments_append _ _⟩
    have hkeep : (b.walk.cfg.write (dword 0x30) (base ||| 0x1#32)) 12 =
        r.write (base ||| 0x1#32) := by
      rw [show dword 0x30 = 12 from rfl, Config.write_same, hcfg]
    have hin : base &&& romMask = base := by
      rw [← hbase, BitVec.and_assoc, BitVec.and_assoc, BitVec.and_self]
    have hread : (r.write (base ||| 0x1#32)).val &&& romMask = base := by
      apply hr.write_addr _ hbase
      rw [BitVec.and_or_distrib_right, hin, show 0x1#32 &&& romMask = 0#32 from by decide,
        BitVec.or_zero]
    have hsize : (treeProbe (r.write (base ||| 0x1#32))).size = ~~~(r.rw &&& romMask) + 1#32 := by
      rw [(hr.write _).treeProbe_size, Reg.write_rw]
    rw [hkeep, heldRom, hsize, if_neg (not_add_one_eq_zero hm), hread]

/-- The registers of a function as the bus allows them. Those of a type-0 function are what the
installer looks at. -/
structure Legal (c : Config) : Prop extends PlainRegs c where
  slots : headerType c &&& 0x7F#8 = 0x00#8 → LegalFrom c 0
  romReserved : headerType c &&& 0x7F#8 = 0x00#8 →
    ((c 12).val ||| (c 12).rw) &&& 0x7FE#32 = 0#32

theorem numBars_type0 (h : ht &&& 0x7F#8 = 0x00#8) : numBars ht = 6 ∧ romOffset ht = 0x30 := by
  rw [numBars, romOffset, h]
  decide

theorem Legal.romReg (h : Legal c) (hkind : headerType c &&& 0x7F#8 = 0x00#8) : RomReg (c 12) := by
  have hrom := h.rom
  rw [(numBars_type0 hkind).2] at hrom
  exact ⟨hrom, h.romReserved hkind⟩

theorem Legal.barRegs (h : Legal c) (hkind : headerType c &&& 0x7F#8 = 0x00#8) : BarRegs c 6 := by
  have hbars := h.bars
  rw [(numBars_type0 hkind).1] at hbars
  exact hbars

theorem heldFrom_congr (loc : Loc) (h : ∀ k, 4 ≤ k → k < 10 → c' k = c k) (n i : Nat) :
    heldFrom loc c' n i = heldFrom loc c n i := by
  induction n generalizing i with
  | zero => rfl
  | succ n ih =>
    rw [heldFrom, heldFrom]
    split_ifs with hi
    · rw [h (4 + i) (by omega) (by omega), ih]
    · rfl

theorem Tracked.congr (h : Tracked loc c c' i n m k l)
    (hc : ∀ k, 4 ≤ k → k ≤ 10 → c'' k = c' k) : Tracked loc c c'' i n m k l := by
  have hheld : heldFrom loc c'' k i = heldFrom loc c' k i :=
    heldFrom_congr loc (fun k hlo hhi => hc k hlo hhi.le) k i
  rw [Tracked, hheld]
  obtain ⟨hsmall, heq, hhigh⟩ | hhuge := h
  · refine .inl ⟨hsmall, heq, fun a ha h64 => ?_⟩
    have hmem := ha
    rw [heq] at hmem
    obtain ⟨j, -, hj, hoff⟩ := (heldFrom_held loc c' k i).offset hmem
    have hd : dword a.offset = 4 + j := by rw [hoff, dword_slot hj]
    rw [hc _ (by omega) (by omega)]
    exact hhigh a ha h64
  · exact .inr hhuge

/-- The node of a function would be right after a scan that starts with the allocators `a`: all
BARs are below 4 GiB, and the expansion ROM does not get address 0. -/
structure Describable (loc : Loc) (c : Config) (a : Alloc) : Prop where
  small : ∀ bar ∈ functionBars c, bar.size < 2 ^ 32
  rom : ∀ rom ∈ romBar (c 12) 0x30,
    alignUp (allot loc (seenFrom c 6 6 0) a).2.mem (BitVec.ofNat 32 rom.size) ≠ 0#32

section Function

variable (b dev fn : Nat) (c : Config) (s : Scan)

/-- What the walker reports for a type-0 function, against the registers it leaves. -/
theorem entered_reported (h : Legal c) (hkind : headerType c &&& 0x7F#8 = 0x00#8)
    (hloc : loc = ⟨BitVec.ofNat 8 b, dev, fn⟩) :
    ∃ l, assignments (entered b dev fn c s).out = assignments s.out ++
          (l ++ (heldRom loc ((entered b dev fn c s).cfg 12)).toList) ∧
      Tracked loc c (entered b dev fn c s).cfg 0 6 6 6 l ∧
      heldRom loc ((entered b dev fn c s).cfg 12) =
        (romBar (c 12) 0x30).map (romRange loc (allot loc (seenFrom c 6 6 0) s.alloc).2) := by
  obtain ⟨hnum, hoff⟩ := numBars_type0 hkind
  have hregs := h.barRegs hkind
  have hht : (readHeader funcAccess c).headerType = headerType c := rfl
  rw [entered, ← hloc, enterFunction]
  generalize hw : ({ s.walk c with out := (s.walk c).out ++ [.device loc
    (readHeader funcAccess c).vendor (readHeader funcAccess c).device
    (readHeader funcAccess c).cls (readHeader funcAccess c).headerType] } : Walk Config) = w
  have hcfg : w.cfg = c := by rw [← hw]; rfl
  have halloc : w.alloc = s.alloc := by rw [← hw]; rfl
  have hout : assignments w.out = assignments s.out := by
    rw [← hw]
    exact (assignments_append _ _).trans (List.append_nil _)
  dsimp only
  rw [hht, probeAssignAndPrintBars, hnum, hoff]
  obtain ⟨l, hl, htracked⟩ := barLoop_tracked loc hregs (h.slots hkind) (n := 6) (m := 6)
    (k := 6) (by decide) (by decide) (by decide) ⟨w, 0#16⟩ fun j _ => by rw [hcfg]
  have hmark := (barLoop_assigned loc hregs (Nat.le_refl 6) 6 0 ⟨w, 0#16⟩
    fun j _ => by rw [hcfg]).2
  have hkeep : (barLoop funcAccess loc 6 6 0 ⟨w, 0#16⟩).walk.cfg 12 = c 12 := by
    have hrom := barLoop_rom loc (headerType c) c w hcfg
    rw [hnum, hoff] at hrom
    exact hrom
  generalize barLoop funcAccess loc 6 6 0 ⟨w, 0#16⟩ = b₁ at hl htracked hmark hkeep ⊢
  rw [halloc] at hmark
  obtain ⟨hheld, hrom⟩ := romStep_reported loc b₁ (h.romReg hkind) hkeep
  have htouch : Touches [12] b₁.walk.cfg (romStep funcAccess loc 0x30 b₁).walk.cfg :=
    romStep_touches b₁ (by decide)
  generalize romStep funcAccess loc 0x30 b₁ = b₂ at hheld hrom htouch ⊢
  have htracked' := htracked.congr fun k hlo hhi => htouch.frame k (by
    rw [List.mem_singleton]
    omega)
  rw [hmark] at hheld hrom
  have hlines : assignments b₂.walk.out =
      assignments s.out ++ (l ++ (heldRom loc (b₂.walk.cfg 12)).toList) := by
    rw [hrom, hheld, hl, hout, List.append_assoc]
  refine ⟨l, ?_⟩
  split_ifs
  · exact ⟨hlines, htracked', hheld⟩
  · have hcmd : ∀ k, k ≠ 1 → pciCfgWrite16 funcAccess b₂.walk.cfg 0x04
        (pciCfgRead16 funcAccess b₂.walk.cfg 0x04 ||| (b₂.cmdBits ||| 0x4#16)) k =
          b₂.walk.cfg k := fun k hk => Config.write_ne _ _ hk
    dsimp only
    rw [hcmd 12 (by decide), assignments_append]
    refine ⟨?_, htracked'.congr fun k hlo _ => hcmd k (by omega), hheld⟩
    exact (List.append_nil _).trans hlines

end Function

/-- The node that says what the walker has reported. -/
def nodeFor (loc : Loc) (l : List Assignment) : Node :=
  ⟨⟨physhi loc 0#32 0#32 0, 0#32, 0#32, 0#32, 0#32⟩ :: l.map Assignment.regEntry,
    l.map Assignment.assignedEntry⟩

theorem physhiMk_reg (n p ss bus dev func reg : Word) :
    physhiMk n p ss bus dev func reg &&& 0xFF#32 = reg &&& 0xFF#32 := by
  apply BitVec.eq_of_getLsbD_eq
  intro i _
  rw [BitVec.getLsbD_and, BitVec.getLsbD_and, getLsbD_0xFF]
  by_cases hi : i < 8
  · have hshift : ∀ (w : Word) (k : Nat), 8 ≤ k → (w <<< k).getLsbD i = false := by
      intro w k hk
      rw [BitVec.getLsbD_shiftLeft, decide_eq_true (show i < k by omega)]
      simp
    rw [physhiMk, BitVec.getLsbD_or, BitVec.getLsbD_or, BitVec.getLsbD_or, BitVec.getLsbD_or,
      BitVec.getLsbD_or, BitVec.getLsbD_or, hshift _ 31 (by decide), hshift _ 30 (by decide),
      hshift _ 24 (by decide), hshift _ 16 (by decide), hshift _ 11 (by decide),
      hshift _ 8 (by decide), BitVec.getLsbD_and, getLsbD_0xFF, decide_eq_true hi]
    simp only [Bool.false_or, Bool.and_true]
  · rw [decide_eq_false hi, Bool.and_false, Bool.and_false]

theorem physhi_offset {loc' : Loc} (h : physhi loc p ss o = physhi loc' p' ss' o') (ho : o < 256)
    (ho' : o' < 256) : o = o' := by
  have hreg : BitVec.ofNat 32 o &&& 0xFF#32 = BitVec.ofNat 32 o' &&& 0xFF#32 := by
    rw [← physhiMk_reg 0#32 p ss (loc.bus.setWidth 32) (BitVec.ofNat 32 loc.dev)
        (BitVec.ofNat 32 loc.fn), ← physhi, h, physhi, physhiMk_reg]
  have hlow : ∀ x < 256, (BitVec.ofNat 32 x &&& 0xFF#32).toNat = x := by
    intro x hx
    rw [BitVec.toNat_and, BitVec.toNat_ofNat, BitVec.toNat_ofNat, Nat.mod_eq_of_lt (by omega),
      show 0xFF % 2 ^ 32 = 2 ^ 8 - 1 from rfl, Nat.and_two_pow_sub_one_eq_mod]
    exact Nat.mod_eq_of_lt hx
  rw [← hlow o ho, hreg, hlow o' ho']

theorem mem_seenFrom (h : bar ∈ seenFrom c nb n i) : ∃ j < nb, bar.offset = 0x10 + j * 4 := by
  induction n generalizing i with
  | zero => exact absurd h List.not_mem_nil
  | succ n ih =>
    rw [seenFrom] at h
    split_ifs at h with hi
    · obtain h | h := List.mem_append.1 h
      · exact ⟨i, hi, (slotBar_spec (Option.mem_toList.1 h)).1⟩
      · exact ih h
    · exact absurd h List.not_mem_nil

/-- What is reported for a function belongs to it, and has the offsets of the BARs found. -/
theorem reported_ranges {l : List Assignment} (h : Assigned loc bars w w')
    (hl : assignments w'.out = assignments w.out ++ l) :
    (∀ a ∈ l, a.loc = loc) ∧ ∀ bar ∈ bars, ∃ a ∈ l, a.offset = bar.offset := by
  have hout := h.1
  rw [ranges_eq_map, ranges_eq_map, hl, List.map_append, List.append_cancel_left_eq] at hout
  have hbars := Pci.map_allot loc bars w.alloc
  rw [← hout, List.map_map] at hbars
  constructor
  · intro a ha
    have hmem : (a.range.loc, a.range.bar) ∈ bars.map fun bar => (loc, bar) := by
      rw [← hbars]
      exact List.mem_map_of_mem ha
    obtain ⟨bar, -, heq⟩ := List.mem_map.1 hmem
    exact (congrArg Prod.fst heq).symm
  · intro bar hb
    have hmem : (loc, bar) ∈ l.map ((fun r : Range => (r.loc, r.bar)) ∘ Assignment.range) := by
      rw [hbars]
      exact List.mem_map_of_mem hb
    obtain ⟨a, ha, heq⟩ := List.mem_map.1 hmem
    exact ⟨a, ha, congrArg (fun x => x.2.offset) heq⟩

section Node

variable {loc : Loc} {c c' : Config} {l : List Assignment}

theorem heldRanges_offset (ha : a ∈ heldRanges loc c') : a.offset < 256 := by
  obtain ha | ha := List.mem_append.1 ha
  · obtain ⟨j, -, hj, hoff⟩ := (heldFrom_held loc c' 6 0).offset ha
    omega
  · rw [Option.mem_toList, heldRom] at ha
    split_ifs at ha
    have hoff := congrArg Assignment.offset (Option.some.inj ha)
    dsimp only at hoff
    omega

theorem heldRom_offset (ha : a ∈ heldRom loc r) : a.offset = 0x30 := by
  rw [Option.mem_def, heldRom] at ha
  split_ifs at ha
  exact (congrArg Assignment.offset (Option.some.inj ha)).symm

/-- The entries for a BAR of 4 GiB or more are not those that the walker reports. -/
theorem huge_disagrees
    (hwrong : ∃ bar ∈ seenFrom c 6 6 0, ∀ a ∈ heldFrom loc c' 6 0, a.offset ≠ bar.offset)
    (hoff : ∀ bar ∈ seenFrom c 6 6 0, ∃ a ∈ l, a.offset = bar.offset) :
    (heldRanges loc c').map Assignment.regEntry ≠ l.map Assignment.regEntry := by
  obtain ⟨bar, hbar, hne⟩ := hwrong
  obtain ⟨a, ha, hoffa⟩ := hoff bar hbar
  obtain ⟨j, hj, hslot⟩ := mem_seenFrom hbar
  intro heq
  have hmem : a.regEntry ∈ (heldRanges loc c').map Assignment.regEntry := by
    rw [heq]
    exact List.mem_map_of_mem ha
  obtain ⟨a', ha', hentry⟩ := List.mem_map.1 hmem
  have hoff' : a'.offset = a.offset :=
    physhi_offset (congrArg PciEntry.physhi hentry) (heldRanges_offset ha') (by omega)
  obtain ha' | ha' := List.mem_append.1 ha'
  · exact hne a' ha' (hoff'.trans hoffa)
  · have hrom := heldRom_offset (Option.mem_toList.1 ha')
    omega

/-- The entries are right if the registers hold what is reported and the ROM is not at 0. -/
theorem agrees_iff (hhigh : HighZero c' (heldFrom loc c' 6 0)) :
    (heldFrom loc c' 6 0).map (assignedOf c') ++
        ((heldRom loc (c' 12)).toList.filter (·.base ≠ 0#32)).map Assignment.assignedEntry =
      (heldRanges loc c').map Assignment.assignedEntry ↔
      ∀ a ∈ heldRom loc (c' 12), a.base ≠ 0#32 := by
  have hslots : (heldFrom loc c' 6 0).map (assignedOf c') =
      (heldFrom loc c' 6 0).map Assignment.assignedEntry := by
    refine List.map_congr_left fun a ha => ?_
    rw [assignedOf, Assignment.assignedEntry]
    by_cases h64 : a.is64 = true
    · rw [if_pos h64, hhigh a ha h64]
    · rw [if_neg h64]
  rw [hslots, heldRanges, List.map_append, List.append_cancel_left_eq]
  constructor
  · intro heq a ha hbase
    rw [Option.mem_def] at ha
    have hlen := congrArg List.length heq
    rw [ha] at hlen
    simp [hbase] at hlen
  · intro hbase
    rw [List.filter_eq_self.2]
    intro a ha
    exact decide_eq_true (hbase a (Option.mem_toList.1 ha))

end Node

section Function

variable (b dev fn : Nat) (c : Config) (s : Scan)

theorem entered_follows : Follows (s.walk c) (entered b dev fn c s) :=
  Follows.enterFunction _ _ _

theorem entered_restorable (h : Legal c) (hkind : headerType c &&& 0x7F#8 = 0x00#8) :
    Restorable (entered b dev fn c s).cfg := by
  have hw1c := (entered_follows b dev fn c s).w1c
  refine ⟨fun i hi => ?_, ?_⟩
  · rw [hw1c]
    exact (h.barRegs hkind i hi).w1c
  · rw [hw1c]
    exact (h.romReg hkind).w1c

theorem entered_header : vendorId (entered b dev fn c s).cfg = vendorId c ∧
    headerType (entered b dev fn c s).cfg = headerType c := by
  have htouch := entered_touches b dev fn c s
  exact ⟨read16_congr (htouch.frame 0 (by decide)), read8_congr (htouch.frame 3 (by decide))⟩

theorem describable_small (h : Describable loc c a) (hkind : headerType c &&& 0x7F#8 = 0x00#8) :
    ∀ bar ∈ barsFrom c 6 6 0, bar.size < 2 ^ 32 := by
  intro bar hb
  apply h.small bar
  rw [functionBars, (numBars_type0 hkind).1]
  exact List.mem_append_left _ hb

theorem entered_node (h : Legal c) (hkind : headerType c &&& 0x7F#8 = 0x00#8)
    (hvendor : vendorId c ≠ 0xFFFF#16) (hloc : loc = ⟨BitVec.ofNat 8 b, dev, fn⟩) :
    ∃ l node, assignments (entered b dev fn c s).out = assignments s.out ++ l ∧
      (∀ a ∈ l, a.loc = loc) ∧
      installOneDevice funcAccess loc (entered b dev fn c s).cfg =
        (some node, (entered b dev fn c s).cfg) ∧
      (node = nodeFor loc l ↔ Describable loc c s.alloc) := by
  obtain ⟨l, hout, htracked, hrom⟩ := entered_reported b dev fn c s h hkind hloc
  have hassigned := entered_assigned b dev fn c s h.toPlainRegs
  rw [← hloc] at hassigned
  obtain ⟨hlocs, hoffs⟩ := reported_ranges hassigned hout
  obtain ⟨hvendor', hkind'⟩ := entered_header b dev fn c s
  have hnode := installOneDevice_eq loc (entered_restorable b dev fn c s h hkind)
    (hvendor' ▸ hvendor) (hkind' ▸ hkind)
  have hseen : ∀ bar ∈ seenFrom c 6 6 0, bar ∈ seenBars c := by
    intro bar hb
    rw [seenBars, (numBars_type0 hkind).1]
    exact List.mem_append_left _ hb
  generalize (entered b dev fn c s).cfg = c' at htracked hrom hout hnode hlocs hoffs ⊢
  refine ⟨_, _, hout, hlocs, hnode, ?_⟩
  rw [nodeFor, Node.mk.injEq, List.cons.injEq]
  have hplaced : (∀ a ∈ heldRom loc (c' 12), a.base ≠ 0#32) ↔ ∀ rom ∈ romBar (c 12) 0x30,
      alignUp (allot loc (seenFrom c 6 6 0) s.alloc).2.mem (BitVec.ofNat 32 rom.size) ≠ 0#32 := by
    rw [hrom]
    simp only [Option.mem_def, Option.map_eq_some_iff, forall_exists_index, and_imp,
      forall_apply_eq_imp_iff₂, romRange]
  obtain ⟨hsmall, heq, hhigh⟩ | ⟨⟨huge, hmem, hsize⟩, wrong, hwrong, -, hne⟩ := htracked
  · rw [heq] at hhigh
    rw [heq, ← heldRanges, agrees_iff hhigh, hplaced]
    constructor
    · rintro ⟨-, hbase⟩
      refine ⟨fun bar hb => ?_, hbase⟩
      rw [functionBars, (numBars_type0 hkind).1] at hb
      obtain hb | hb := List.mem_append.1 hb
      · exact hsmall bar hb
      · obtain ⟨-, hpos, hsize⟩ := romBar_spec (Option.mem_toList.1 hb)
        omega
    · intro hdesc
      exact ⟨⟨rfl, rfl⟩, hdesc.rom⟩
  · refine iff_of_false (fun hnode => ?_) fun hdesc => ?_
    · exact huge_disagrees ⟨wrong, hwrong, hne⟩ (fun bar hb => hoffs bar (hseen bar hb)) hnode.1.2
    · exact absurd (describable_small _ hdesc hkind huge hmem) (Nat.not_lt.2 hsize)

end Function

end Pegasos2.Pci
