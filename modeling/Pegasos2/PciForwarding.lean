import Pegasos2.PciStatus
import Pegasos2.PciResources

namespace Pegasos2.Pci
set_option autoImplicit true

/-- IO is bit 0, MEM bit 1 and MASTER bit 2. -/
def command (c : Config) : BitVec 16 := pciCfgRead16 funcAccess c 0x04

/-- The three bits can be written. -/
def CommandRegs (c : Config) : Prop := (c 1).rw &&& 0x7#32 = 0x7#32

def Master (c : Config) : Prop := (command c).getLsbD 2 = true

instance (c : Config) : Decidable (Master c) := inferInstanceAs (Decidable (_ = _))

theorem command_write {c : Config} (hregs : CommandRegs c) (v : BitVec 16) (hi : i < 3) :
    (command (pciCfgWrite16 funcAccess c 0x04 v)).getLsbD i = v.getLsbD i := by
  have hmask : ∀ i, i < 16 → (0x7#16).getLsbD i → (0x7#32).getLsbD i := by decide
  have hread := read16_write16 c 0x04 0x04 0x7#16 v rfl fun i hi hm =>
    getLsbD_of_and_eq hregs (by rw [Nat.zero_add]; exact hmask i hi hm)
  have hbit := congrArg (·.getLsbD i) hread
  have hm : (0x7#16).getLsbD i = true := by
    interval_cases i <;> rfl
  simp only [BitVec.getLsbD_and, hm, Bool.and_true, if_true] at hbit
  exact hbit

theorem CommandRegs.touches_iff (ht : Touches ks c c') : CommandRegs c' ↔ CommandRegs c := by
  rw [CommandRegs, CommandRegs, ht.rw_eq]

theorem command_congr (h : c' 1 = c 1) : command c' = command c := read16_congr h

theorem enterFunction_master (loc : Loc) (h : Header) (w : Walk Config)
    (hh : h.headerType = headerType w.cfg) (hregs : CommandRegs w.cfg) :
    Master (enterFunction funcAccess loc h w).cfg ↔ Decodes w.cfg ∨ Master w.cfg := by
  have htouch := probeAssignAndPrintBars_touches loc (headerType w.cfg)
    { w with out := w.out ++ [.device loc h.vendor h.device h.cls (headerType w.cfg)] }
    (fun _ hi => bar_mem _ hi) (rom_mem _)
  have hbits := probeAssign_cmdBits loc
    { w with out := w.out ++ [.device loc h.vendor h.device h.cls (headerType w.cfg)] } rfl
  have hkeep := htouch.frame 1 (by decide)
  simp only [enterFunction, hh]
  generalize probeAssignAndPrintBars funcAccess loc (headerType w.cfg) _ = b at hbits hkeep ⊢
  have hregs' : CommandRegs b.walk.cfg := by
    rw [CommandRegs, hkeep]
    exact hregs
  by_cases hdec : Decodes w.cfg
  · rw [if_neg (hbits.2 hdec)]
    refine iff_of_true ?_ (.inl hdec)
    have hbit : (0x4#16).getLsbD 2 = true := rfl
    rw [Master, command_write hregs' _ (by decide), BitVec.getLsbD_or, BitVec.getLsbD_or, hbit,
      Bool.or_true, Bool.or_true]
  · rw [if_pos (not_not.1 fun hne => hdec (hbits.1 hne))]
    simp only [hdec, false_or]
    rw [Master, Master, command_congr hkeep]

/-- The command register of a bridge gets the bits for the windows in use. -/
theorem closeBridge_command (start : Alloc) (highest : BitVec 8) (w : Walk Config)
    (hregs : CommandRegs w.cfg) (hi : i < 3) :
    (command (closeBridge funcAccess start highest w).cfg).getLsbD i =
      ((command w.cfg).getLsbD i || (forwardBits start w.alloc).getLsbD i) := by
  have hwindow := (bridgeProgramWindow_touches start w.alloc w).frame 1 (by decide)
  have hregs' : CommandRegs (bridgeProgramWindow funcAccess start w.alloc w).cfg := by
    rw [CommandRegs, hwindow]
    exact hregs
  have htail : Touches [6] (enableForwarding funcAccess start w.alloc
      (bridgeProgramWindow funcAccess start w.alloc w)).cfg
      (closeBridge funcAccess start highest w).cfg :=
    Touches.cfgWrite8 _ _ (by decide)
  rw [command_congr (htail.frame 1 (by decide)), enableForwarding, command_write hregs' _ hi,
    BitVec.getLsbD_or, ← command, command_congr hwindow]

section Bridge

variable (b dev fn : Nat) (c : Config) (s s' : Scan)

theorem closed_command (hregs : CommandRegs c) (hi : i < 3) :
    (command (closed b dev fn c s s').cfg).getLsbD i =
      ((command (entered b dev fn c s).cfg).getLsbD i ||
        (forwardBits (opened b dev fn c s).alloc s'.alloc).getLsbD i) := by
  have hkeep : (opened b dev fn c s).cfg 1 = (entered b dev fn c s).cfg 1 :=
    (openBridge_touches _ _ _).frame 1 (by decide)
  have hopen : CommandRegs (opened b dev fn c s).cfg :=
    (CommandRegs.touches_iff (opened_touches b dev fn c s)).2 hregs
  rw [← command_congr hkeep]
  exact closeBridge_command _ _ (s'.walk (opened b dev fn c s).cfg) hopen hi

theorem forwardBits_master (start stop : Alloc) : (forwardBits start stop).getLsbD 2 = false := by
  rw [forwardBits]
  split <;> split <;> split <;> rfl

theorem closed_master (hregs : CommandRegs c) :
    Master (closed b dev fn c s s').cfg ↔ Decodes c ∨ Master c := by
  have henter := enterFunction_master ⟨BitVec.ofNat 8 b, dev, fn⟩ (readHeader funcAccess c)
    (s.walk c) rfl hregs
  rw [Master, closed_command b dev fn c s s' hregs (by decide), forwardBits_master, Bool.or_false]
  exact henter

/-- A window of a bridge: its registers are there, and it is not empty. -/
def HasWindow (c : Config) (space : Space) : Prop := Implements c space ∧ ∃ a, InWindow c space a

/-- A window that is not empty is one that the allocators have moved over. -/
theorem closed_window (h : HasWindow (closed b dev fn c s s').cfg space) :
    s'.alloc.next space > (opened b dev fn c s).alloc.next space := by
  obtain ⟨himpl, a, hbase, hlimit⟩ := h
  have himpl' : Implements (s'.walk (opened b dev fn c s).cfg).cfg space :=
    (Implements.touches_iff (opened_touches b dev fn c s)).2
      ((Implements.touches_iff (closed_touches b dev fn c s s')).1 himpl)
  rw [closed, closeBridge_windowBase _ _ _ space himpl'] at hbase
  rw [closed, closeBridge_windowLimit _ _ _ space himpl'] at hlimit
  by_contra hempty
  have hle : (s'.alloc.next space).toNat ≤ ((opened b dev fn c s).alloc.next space).toNat :=
    Nat.le_of_not_lt fun hlt => hempty (BitVec.lt_def.2 hlt)
  cases space with
  | mem => exact absurd (hbase.trans hlimit) (Nat.not_le.2 (memWindow_unused hle))
  | pref => exact absurd (hbase.trans hlimit) (Nat.not_le.2 (memWindow_unused hle))
  | io => exact absurd (hbase.trans hlimit) (Nat.not_le.2 (ioWindow_unused hle))

/-- The MEM and IO bits follow the windows, whatever the bridge had enabled before. -/
theorem closed_forwards (hregs : CommandRegs c) :
    (HasWindow (closed b dev fn c s s').cfg .mem ∨ HasWindow (closed b dev fn c s s').cfg .pref →
        (command (closed b dev fn c s s').cfg).getLsbD 1 = true) ∧
      (HasWindow (closed b dev fn c s s').cfg .io →
        (command (closed b dev fn c s s').cfg).getLsbD 0 = true) := by
  rw [closed_command b dev fn c s s' hregs (by decide),
    closed_command b dev fn c s s' hregs (by decide), forwardBits]
  refine ⟨?_, fun h => ?_⟩
  · rintro (h | h)
    · have hmem : s'.alloc.mem > (opened b dev fn c s).alloc.mem := closed_window b dev fn c s s' h
      have hbit : (0x2#16).getLsbD 1 = true := rfl
      rw [if_pos hmem, BitVec.getLsbD_or, BitVec.getLsbD_or, hbit, Bool.true_or, Bool.true_or,
        Bool.or_true]
    · have hpref : s'.alloc.pref > (opened b dev fn c s).alloc.pref :=
        closed_window b dev fn c s s' h
      have hbit : (0x2#16).getLsbD 1 = true := rfl
      rw [if_pos hpref, BitVec.getLsbD_or, BitVec.getLsbD_or, hbit, Bool.or_true, Bool.true_or,
        Bool.or_true]
  · have hio : s'.alloc.io > (opened b dev fn c s).alloc.io := closed_window b dev fn c s s' h
    have hbit : (0x1#16).getLsbD 0 = true := rfl
    rw [if_pos hio, BitVec.getLsbD_or, hbit, Bool.or_true, Bool.or_true]

end Bridge

/-- The range is that of a BAR, not of an expansion ROM. -/
def Range.IsBar (r : Range) : Prop := r.offset < 0x28

def HasBars (c : Config) : Prop := ∃ i < numBars (headerType c), HasBar c i

/-- Ranges of the function at `loc` are assigned, BARs among them just if `P`. -/
def Adds (P : Prop) (loc : Loc) (w w' : Walk Config) : Prop :=
  ∃ l, ranges w'.out = ranges w.out ++ l ∧ (∀ r ∈ l, r.loc = loc) ∧ ((∃ r ∈ l, r.IsBar) ↔ P)

namespace Adds

theorem none (h : ranges w'.out = ranges w.out) : Adds False loc w w' := by
  refine ⟨[], by rw [h, List.append_nil], fun r hr => absurd hr List.not_mem_nil, ?_⟩
  exact ⟨fun ⟨r, hr, _⟩ => absurd hr List.not_mem_nil, False.elim⟩

theorem trans (h : Adds P loc w w₁) (h' : Adds Q loc w₁ w₂) : Adds (P ∨ Q) loc w w₂ := by
  obtain ⟨l, hout, hloc, hbar⟩ := h
  obtain ⟨l', hout', hloc', hbar'⟩ := h'
  refine ⟨l ++ l', by rw [hout', hout, List.append_assoc],
    fun r hr => (List.mem_append.1 hr).elim (hloc r) (hloc' r), ?_⟩
  rw [← hbar, ← hbar']
  simp only [List.mem_append, or_and_right, exists_or]

theorem iff (h : Adds P loc w w') (hPQ : P ↔ Q) : Adds Q loc w w' := by
  rwa [← propext hPQ]

theorem of_allotsAt (h : AllotsAt loc w w') : ∃ P, Adds P loc w w' := by
  obtain ⟨l, hloc, hall⟩ := h
  exact ⟨_, l, hall.ranges_eq, hloc, Iff.rfl⟩

theorem assign (loc : Loc) (b : Bars Config) :
    Adds (offset < 0x28) loc b.walk (assign funcAccess loc offset space p value b).walk := by
  refine ⟨[⟨loc, offset, space, (alignUp (b.walk.alloc.next space) p.size).toNat, p.size.toNat⟩],
    ?_, fun r hr => by rw [List.mem_singleton.1 hr], ?_⟩
  · rw [Pci.assign, ranges_append]
    rfl
  · simp only [List.mem_singleton, exists_eq_left, Range.IsBar]

theorem barStep_absent (loc : Loc) (b : Bars Config) (hi : i < 6) (h : ¬ HasBar b.walk.cfg i) :
    Adds False loc b.walk (barStep funcAccess loc i b).1.walk := by
  have hd : dword (0x10 + i * 4) = 4 + i := dword_bar (hi.trans (by decide))
  have hprobed : probed (b.walk.cfg (dword (0x10 + i * 4)))
      (barAddrMask (isIo (b.walk.cfg (4 + i)).val)) = 0#32 := by
    rw [hd]
    exact not_not.1 h
  simp only [barStep, read_isIo b.walk.cfg hi]
  rw [if_pos (pciBarProbe_absent b.walk.cfg (0x10 + i * 4) hprobed).1]
  exact .none rfl

theorem barStep_present (loc : Loc) (b : Bars Config) (hi : i < 6) (h : HasBar b.walk.cfg i) :
    Adds True loc b.walk (barStep funcAccess loc i b).1.walk := by
  have hd : dword (0x10 + i * 4) = 4 + i := dword_bar (hi.trans (by decide))
  have hprobed : probed (b.walk.cfg (dword (0x10 + i * 4)))
      (barAddrMask (isIo (b.walk.cfg (4 + i)).val)) ≠ 0#32 := by
    rw [hd]
    exact h
  have hoffset : 0x10 + i * 4 < 0x28 := by omega
  have hsize := pciBarProbe_present b.walk.cfg (0x10 + i * 4) hprobed
  simp only [barStep, read_isIo b.walk.cfg hi]
  generalize pciBarProbe funcAccess b.walk.cfg (0x10 + i * 4)
    (barAddrMask (isIo (b.walk.cfg (4 + i)).val)) = r at hsize ⊢
  rw [if_neg hsize]
  have hprobe : Adds False loc b.walk { b.walk with cfg := r.2 } := .none rfl
  exact (hprobe.trans (.assign loc ⟨{ b.walk with cfg := r.2 }, b.cmdBits⟩)).iff
    (iff_of_true (.inr hoffset) trivial)

theorem barLoop (loc : Loc) (hnb : nb ≤ 6) (n i : Nat) (b : Bars Config) (hn : nb ≤ i + n)
    (hcfg : ∀ k, 4 + i ≤ k → b.walk.cfg k = c k) :
    Adds (∃ j < nb, i ≤ j ∧ HasBar c j) loc b.walk (barLoop funcAccess loc nb n i b).walk := by
  induction n generalizing i b with
  | zero =>
    refine (Adds.none rfl).iff ⟨False.elim, ?_⟩
    rintro ⟨j, hj, hij, -⟩
    omega
  | succ n ih =>
    rw [Pci.barLoop]
    split_ifs with hi
    · have hbar : HasBar b.walk.cfg i ↔ HasBar c i := by
        rw [HasBar, HasBar, hcfg (4 + i) (Nat.le_refl _)]
      by_cases hc : HasBar c i
      · obtain ⟨P, hrest⟩ := Adds.of_allotsAt (barLoop_allotsAt funcAccess loc nb n
          (barStep funcAccess loc i b).2 (barStep funcAccess loc i b).1)
        refine ((barStep_present loc b (Nat.lt_of_lt_of_le hi hnb) (hbar.2 hc)).trans hrest).iff ?_
        exact iff_of_true (.inl trivial) ⟨i, hi, Nat.le_refl i, hc⟩
      · have hi6 : i < 6 := Nat.lt_of_lt_of_le hi hnb
        have habsent : ¬ HasBar b.walk.cfg i := fun h => hc (hbar.1 h)
        obtain ⟨-, hnext, hkeep⟩ := Pci.barStep_absent loc b hi6 habsent
        have hrest := ih (i + 1) (Pci.barStep funcAccess loc i b).1 (by omega)
          fun k hk => (hkeep k hk).trans (hcfg k (by omega))
        dsimp only
        rw [hnext]
        refine ((barStep_absent loc b hi6 habsent).trans hrest).iff ?_
        rw [false_or]
        constructor
        · rintro ⟨j, hj, hij, h⟩
          exact ⟨j, hj, by omega, h⟩
        · rintro ⟨j, hj, hij, h⟩
          obtain rfl | hlt := Nat.eq_or_lt_of_le hij
          · exact absurd h hc
          · exact ⟨j, hj, hlt, h⟩
    · refine (Adds.none rfl).iff ⟨False.elim, ?_⟩
      rintro ⟨j, hj, hij, -⟩
      omega

theorem romStep (loc : Loc) (hoffset : 0x28 ≤ offset) (b : Bars Config) :
    Adds False loc b.walk (romStep funcAccess loc offset b).walk := by
  have hno : ¬ offset < 0x28 := Nat.not_lt.2 hoffset
  simp only [Pci.romStep]
  generalize pciBarProbe funcAccess b.walk.cfg offset 0xFFFFF800#32 = r
  by_cases hsize : r.1.size = 0#32
  · rw [if_pos hsize]
    exact .none rfl
  · rw [if_neg hsize]
    have hprobe : Adds False loc b.walk { b.walk with cfg := r.2 } := .none rfl
    exact (hprobe.trans (.assign loc ⟨{ b.walk with cfg := r.2 }, b.cmdBits⟩)).iff
      (or_iff_right id |>.trans (iff_of_false hno id))

theorem probeAssignAndPrintBars (loc : Loc) (w : Walk Config) :
    Adds (HasBars w.cfg) loc w
      (probeAssignAndPrintBars funcAccess loc (headerType w.cfg) w).walk := by
  have hloop := Adds.barLoop loc (numBars_le (headerType w.cfg)) (numBars (headerType w.cfg)) 0
    ⟨w, 0#16⟩ (by omega) fun _ _ => rfl
  have hrom := Adds.romStep loc ((by decide : 0x28 ≤ 0x30).trans (le_romOffset (headerType w.cfg)))
    (Pci.barLoop funcAccess loc (numBars (headerType w.cfg)) (numBars (headerType w.cfg)) 0
      ⟨w, 0#16⟩)
  refine (hloop.trans hrom).iff ?_
  simp only [Nat.zero_le, true_and, or_false]
  rfl

theorem enterFunction (loc : Loc) (h : Header) (w : Walk Config)
    (hh : h.headerType = headerType w.cfg) :
    Adds (HasBars w.cfg) loc w (enterFunction funcAccess loc h w) := by
  have hreport (w : Walk Config) (x : Line) (cfg : Config) (hx : x.range = Option.none) :
      Adds False loc w { w with cfg := cfg, out := w.out ++ [x] } := by
    refine .none ?_
    have hnil : ranges [x] = [] := by rw [ranges, List.filterMap_cons_none hx, List.filterMap_nil]
    rw [ranges_append, hnil, List.append_nil]
  have hdevice := hreport w (.device loc h.vendor h.device h.cls (headerType w.cfg)) w.cfg rfl
  have hbars := hdevice.trans (Adds.probeAssignAndPrintBars loc
    { w with out := w.out ++ [.device loc h.vendor h.device h.cls (headerType w.cfg)] })
  simp only [Pci.enterFunction, hh]
  generalize Pci.probeAssignAndPrintBars funcAccess loc (headerType w.cfg) _ = b at hbars ⊢
  by_cases hcmd : b.cmdBits = 0#16
  · rw [if_pos hcmd]
    exact hbars.iff (or_iff_right id)
  · rw [if_neg hcmd]
    exact (hbars.trans (hreport b.walk (.cmd b.cmdBits) _ rfl)).iff
      ((or_iff_left id).trans (or_iff_right id))

end Adds

/-- A function behind a bridge, at any depth, has a BAR. -/
def Bus.AnyBars : Bus → Prop
  | nil => False
  | cons _ _ c below rest => HasBars c ∨ (isBridge c = true ∧ below.AnyBars) ∨ rest.AnyBars

theorem Bus.anyBars_iff (X : Bus) (b n : Nat) :
    X.AnyBars ↔ ∃ f ∈ X.functions b n, HasBars f.2 := by
  induction X generalizing b n with
  | nil => exact ⟨False.elim, fun ⟨f, hf, _⟩ => absurd hf List.not_mem_nil⟩
  | cons dev fn c below rest ihb ihr =>
    rw [AnyBars]
    cases hbridge : isBridge c with
    | false =>
      rw [functions_func hbridge, ihr b n]
      simp only [List.mem_cons, or_and_right, exists_or, exists_eq_left, Bool.false_eq_true,
        false_and, false_or]
    | true =>
      rw [functions_bridge hbridge, ihb n (n + 1), ihr b (n + 1 + below.bridges)]
      simp only [List.mem_cons, List.mem_append, or_and_right, exists_or, exists_eq_left, true_and]

/-- The BARs that a scan assigns are those of the functions that have one. -/
theorem Scans.adds (h : Scans lo cur b s X X' s') :
    ∃ l, ranges s'.out = ranges s.out ++ l ∧ ∀ x, (∃ r ∈ l, r.IsBar ∧ r.loc = x) ↔
      ∃ f ∈ X.functions b s.next, f.1 = x ∧ HasBars f.2 := by
  have hown {l : List Range} {loc : Loc} {P : Prop} (hloc : ∀ r ∈ l, r.loc = loc)
      (hbar : (∃ r ∈ l, r.IsBar) ↔ P) (x : Loc) :
      (∃ r ∈ l, r.IsBar ∧ r.loc = x) ↔ loc = x ∧ P := by
    rw [← hbar]
    constructor
    · rintro ⟨r, hr, hr', rfl⟩
      exact ⟨(hloc r hr).symm, r, hr, hr'⟩
    · rintro ⟨rfl, r, hr, hr'⟩
      exact ⟨r, hr, hr', hloc r hr⟩
  induction h with
  | nil =>
    refine ⟨[], (List.append_nil _).symm, fun x => ?_⟩
    exact ⟨fun ⟨r, hr, _⟩ => absurd hr List.not_mem_nil,
      fun ⟨f, hf, _⟩ => absurd hf List.not_mem_nil⟩
  | @func lo cur dev fn c b s rest rest' s' _ hbridge _ ih =>
    obtain ⟨l, hout, hloc, hbar⟩ := Adds.enterFunction ⟨BitVec.ofNat 8 b, dev, fn⟩
      (readHeader funcAccess c) (s.walk c) rfl
    obtain ⟨l', hout', hl'⟩ := ih
    rw [Walk.scan_out, entered, hout] at hout'
    refine ⟨l ++ l', by rw [hout', List.append_assoc]; rfl, fun x => ?_⟩
    rw [Walk.scan_next] at hl'
    rw [Bus.functions_func hbridge]
    simp only [List.mem_append, List.mem_cons, or_and_right, exists_or, exists_eq_left, hl' x,
      hown hloc hbar x]
    rfl
  | @bridge lo cur dev fn c b s below below' s₁ rest rest' s' _ hbridge _ _ hbelow _ ihb ihr =>
    obtain ⟨l, hout, hloc, hbar⟩ := Adds.enterFunction ⟨BitVec.ofNat 8 b, dev, fn⟩
      (readHeader funcAccess c) (s.walk c) rfl
    obtain ⟨l₁, hout₁, hl₁⟩ := ihb
    obtain ⟨l₂, hout₂, hl₂⟩ := ihr
    have hnext := hbelow.next_eq
    rw [Walk.scan_next] at hnext hl₁ hl₂
    rw [Walk.scan_out, opened_ranges, entered, hout] at hout₁
    rw [Walk.scan_out, closed_ranges, hout₁] at hout₂
    refine ⟨l ++ (l₁ ++ l₂), by rw [hout₂, List.append_assoc, List.append_assoc]; rfl, fun x => ?_⟩
    rw [hnext] at hl₂
    rw [Bus.functions_bridge hbridge]
    simp only [List.mem_append, List.mem_cons, or_and_right, exists_or, exists_eq_left, hl₁ x,
      hl₂ x, hown hloc hbar x]
    rfl

theorem HasBridge.mem_allBridges {below rest : Bus} (h : HasBridge X c below rest) :
    c ∈ X.allBridges := by
  induction h with
  | here hbridge =>
    rw [Bus.allBridges_bridge hbridge]
    exact List.mem_append_left _ List.mem_cons_self
  | deeper hbridge _ ih =>
    rw [Bus.allBridges_bridge hbridge]
    exact List.mem_append_left _ (List.mem_cons_of_mem _ ih)
  | later _ ih =>
    rw [Bus.allBridges]
    exact List.mem_append_right _ ih

/-- The walk of the bus `X` with number `b` takes the bridge `c` to `c'`, and the bus behind it to
`below'`. -/
structure Walked (X : Bus) (b n : Nat) (c : Config) (below : Bus) (c' : Config) (below' : Bus) :
    Prop where
  input : ∃ rest, HasBridge X c below rest
  after : ∃ b dev fn s s', c' = (closed b dev fn c s s').cfg
  locs : ∃ m, below.functions m (m + 1) ⊆ X.functions b n ∧
    below'.locs (secondary c') = (below.functions m (m + 1)).map Prod.fst

namespace Walked

variable {below below' rest : Bus}

theorem deeper (h : Walked X m (m + 1) c below c' below') (hbridge : isBridge c₀ = true)
    (hm : m = n) : Walked (.cons dev fn c₀ X rest) b n c below c' below' where
  input := h.input.imp fun _ hin => .deeper hbridge hin
  after := h.after
  locs := by
    subst hm
    obtain ⟨k, hsub, hlocs⟩ := h.locs
    rw [Bus.functions_bridge hbridge]
    exact ⟨k, fun f hf => List.mem_cons_of_mem _ (List.mem_append_left _ (hsub hf)), hlocs⟩

theorem later (h : Walked X b m c below c' below')
    (hsub : ∀ f ∈ X.functions b m, f ∈ (Bus.cons dev fn c₀ below₀ X).functions b n) :
    Walked (.cons dev fn c₀ below₀ X) b n c below c' below' where
  input := h.input.imp fun _ hin => .later hin
  after := h.after
  locs := by
    obtain ⟨k, hsub', hlocs⟩ := h.locs
    exact ⟨k, fun f hf => hsub f (hsub' hf), hlocs⟩

end Walked

/-- The bridges of the tree after the walk are those before, one by one. -/
theorem Scans.walked (h : Scans lo cur b s X X' s') (hb : b < 256) :
    (∀ c' below' rest', HasBridge X' c' below' rest' →
      ∃ c below, Walked X b s.next c below c' below') ∧
    ∀ c below rest, HasBridge X c below rest →
      ∃ c' below' rest', HasBridge X' c' below' rest' ∧ Walked X b s.next c below c' below' := by
  induction h with
  | nil => exact ⟨nofun, nofun⟩
  | @func lo cur dev fn c₀ b s rest₀ rest₀' s' _ hbridge _ ih =>
    obtain ⟨hback, hforth⟩ := ih hb
    rw [Walk.scan_next] at hback hforth
    have hsub : ∀ f ∈ rest₀.functions b s.next,
        f ∈ (Bus.cons dev fn c₀ .nil rest₀).functions b s.next := fun f hf => by
      rw [Bus.functions_func hbridge]
      exact List.mem_cons_of_mem _ hf
    constructor
    · rintro c' below' rest' (hb' | ⟨_, hin⟩ | ⟨hin⟩)
      · rw [entered_isBridge, hbridge] at hb'
        exact absurd hb' Bool.false_ne_true
      · cases hin
      · obtain ⟨c, below, hw⟩ := hback c' below' rest' hin
        exact ⟨c, below, hw.later hsub⟩
    · rintro c below rest (hb' | ⟨_, hin⟩ | ⟨hin⟩)
      · rw [hbridge] at hb'
        exact absurd hb' Bool.false_ne_true
      · cases hin
      · obtain ⟨c', below', rest', hin', hw⟩ := hforth c below rest hin
        exact ⟨c', below', rest', .later hin', hw.later hsub⟩
  | @bridge lo cur dev fn c₀ b s below₀ below₀' s₁ rest₀ rest₀' s' hplace hbridge hreset hle
      hbelow hrest ihb ihr =>
    have hnext := hbelow.next_eq
    obtain ⟨-, hsec, -⟩ := hbelow.numbers hreset hb hle
    rw [Walk.scan_next] at hnext
    obtain ⟨hbackb, hforthb⟩ := ihb (by omega)
    obtain ⟨hbackr, hforthr⟩ := ihr hb
    rw [Walk.scan_next] at hbackb hforthb hbackr hforthr
    have hlocs := hbelow.locs_eq (by omega)
    rw [Walk.scan_next] at hlocs
    have hbridge' : isBridge (closed b dev fn c₀ s s₁).cfg = true :=
      (closed_isBridge _ _ _ _ _ _).trans hbridge
    have hsub : ∀ f ∈ rest₀.functions b s₁.next,
        f ∈ (Bus.cons dev fn c₀ below₀ rest₀).functions b s.next := fun f hf => by
      rw [Bus.functions_bridge hbridge, ← hnext]
      exact List.mem_cons_of_mem _ (List.mem_append_right _ hf)
    have hhere : Walked (.cons dev fn c₀ below₀ rest₀) b s.next c₀ below₀
        (closed b dev fn c₀ s s₁).cfg below₀' := by
      refine ⟨⟨rest₀, .here hbridge⟩, ⟨b, dev, fn, s, s₁, rfl⟩, s.next, ?_, ?_⟩
      · rw [Bus.functions_bridge hbridge]
        exact fun f hf => List.mem_cons_of_mem _ (List.mem_append_left _ hf)
      · rw [hsec, hlocs]
    constructor
    · rintro c' below' rest' (_ | ⟨_, hin⟩ | ⟨hin⟩)
      · exact ⟨c₀, below₀, hhere⟩
      · obtain ⟨c, below, hw⟩ := hbackb c' below' rest' hin
        exact ⟨c, below, hw.deeper hbridge rfl⟩
      · obtain ⟨c, below, hw⟩ := hbackr c' below' rest' hin
        exact ⟨c, below, hw.later hsub⟩
    · rintro c below rest (_ | ⟨_, hin⟩ | ⟨hin⟩)
      · exact ⟨_, _, _, .here hbridge', hhere⟩
      · obtain ⟨c', below', rest', hin', hw⟩ := hforthb c below rest hin
        exact ⟨c', below', rest', .deeper hbridge' hin', hw.deeper hbridge rfl⟩
      · obtain ⟨c', below', rest', hin', hw⟩ := hforthr c below rest hin
        exact ⟨c', below', rest', .later hin', hw.later hsub⟩

/-- A bridge forwards what its windows take, and the DMA of the functions behind it: MEM, IO and
MASTER are set where needed. `l` are the assigned ranges. -/
structure Forwards (c : Config) (below : Bus) (l : List Range) : Prop where
  mem : HasWindow c .mem ∨ HasWindow c .pref → (command c).getLsbD 1 = true
  io : HasWindow c .io → (command c).getLsbD 0 = true
  master : (∃ r ∈ l, r.IsBar ∧ r.loc ∈ below.locs (secondary c)) → Master c

def ForwardingEnabled (ctx : Ctx) : Prop :=
  ∀ c below rest, HasBridge ctx.walk.cfg c below rest → Forwards c below (ranges ctx.walk.out)

/-- The bridges with a BAR behind them have a BAR or a ROM of their own, or are bus masters
already. -/
def MastersReady (X : Bus) : Prop :=
  ∀ c below rest, HasBridge X c below rest → below.AnyBars → Decodes c ∨ Master c

/-- A topology whose bridges implement the enables of their command registers. -/
structure BridgedTopology extends Topology where
  commands : ∀ c ∈ bus.allBridges, CommandRegs c

theorem Walked.forwards_iff {below below' : Bus} (h : Walked X b n c below c' below')
    (hregs : CommandRegs c) (hnd : ((X.functions b n).map Prod.fst).Nodup)
    (hl : ∀ x, (∃ r ∈ l, r.IsBar ∧ r.loc = x) ↔ ∃ f ∈ X.functions b n, f.1 = x ∧ HasBars f.2) :
    Forwards c' below' l ↔ (below.AnyBars → Decodes c ∨ Master c) := by
  obtain ⟨b', dev, fn, s, s', rfl⟩ := h.after
  obtain ⟨m, hsub, hlocs⟩ := h.locs
  have hbars : (∃ r ∈ l, r.IsBar ∧
      r.loc ∈ below'.locs (secondary (closed b' dev fn c s s').cfg)) ↔ below.AnyBars := by
    rw [hlocs, below.anyBars_iff m (m + 1)]
    constructor
    · rintro ⟨r, hr, hbar, hloc⟩
      obtain ⟨f, hf, hfloc⟩ := List.mem_map.1 hloc
      obtain ⟨g, hg, hgloc, hgbars⟩ := (hl r.loc).1 ⟨r, hr, hbar, rfl⟩
      have hfg : f = g := List.inj_on_of_nodup_map hnd (hsub hf) hg (hfloc.trans hgloc.symm)
      exact ⟨f, hf, hfg ▸ hgbars⟩
    · rintro ⟨f, hf, hfbars⟩
      obtain ⟨r, hr, hbar, hloc⟩ := (hl f.1).2 ⟨f, hsub hf, rfl, hfbars⟩
      exact ⟨r, hr, hbar, hloc ▸ List.mem_map_of_mem hf⟩
  have hmaster := closed_master b' dev fn c s s' hregs
  obtain ⟨hmem, hio⟩ := closed_forwards b' dev fn c s s' hregs
  constructor
  · exact fun hfwd hany => hmaster.1 (hfwd.master (hbars.2 hany))
  · exact fun hready => ⟨hmem, hio, fun hany => hmaster.2 (hready (hbars.1 hany))⟩

theorem Scans.forwarding_iff (t : BridgedTopology)
    (h : Scans 0 none 0 Scan.reset t.bus X s) :
    ForwardingEnabled (s.ctx X) ↔ MastersReady t.bus := by
  obtain ⟨hback, hforth⟩ := h.walked (by decide)
  obtain ⟨l, hout, hl⟩ := h.adds
  have hranges : ranges (s.ctx X).walk.out = l := hout
  have hnd := h.functions_nodup t.toTopology
  have hstep {c c' : Config} {below below' : Bus} (hw : Walked t.bus 0 1 c below c' below') :
      Forwards c' below' (ranges (s.ctx X).walk.out) ↔ (below.AnyBars → Decodes c ∨ Master c) := by
    obtain ⟨rest, hin⟩ := hw.input
    rw [hranges]
    exact hw.forwards_iff (t.commands c hin.mem_allBridges) hnd hl
  constructor
  · intro hall c below rest hin
    obtain ⟨c', below', rest', hin', hw⟩ := hforth c below rest hin
    exact (hstep hw).1 (hall c' below' rest' hin')
  · intro hready c' below' rest' hin'
    obtain ⟨c, below, hw⟩ := hback c' below' rest' hin'
    obtain ⟨rest, hin⟩ := hw.input
    exact (hstep hw).2 (hready c below rest hin)

/-- After `pci_walk` all bridges forward what is behind them just if those with a BAR behind them
decode something themselves or were bus masters before. -/
theorem pciWalk_forwards_iff (t₀ t₁ : BridgedTopology) :
    ∃ depth, ∀ k, ∃ ctx₀ ctx₁, pciWalk (depth + k) t₀.bus t₁.bus = some (ctx₀, ctx₁) ∧
      (ForwardingEnabled ctx₀ ↔ MastersReady t₀.bus) ∧
      (ForwardingEnabled ctx₁ ↔ MastersReady t₁.bus) :=
  pciWalk_satisfies t₀.toTopology t₁.toTopology (fun _ _ h => h.forwarding_iff t₀)
    (fun _ _ h => h.forwarding_iff t₁)

/-- A bridge without BARs and ROM, at reset. -/
def bareBridge : Config
  | 0 => ⟨0x00261011#32, 0#32, 0#32⟩
  | 1 => ⟨0#32, 0x00000007#32, 0xF9000000#32⟩
  | 2 => ⟨0x06040000#32, 0#32, 0#32⟩
  | 3 => ⟨0x00010000#32, 0#32, 0#32⟩
  | 6 => ⟨0#32, 0x00FFFFFF#32, 0#32⟩
  | 7 => ⟨0#32, 0x0000F0F0#32, 0#32⟩
  | 8 => ⟨0#32, 0xFFF0FFF0#32, 0#32⟩
  | 9 => ⟨0#32, 0xFFF0FFF0#32, 0#32⟩
  | _ => ⟨0#32, 0#32, 0#32⟩

/-- A card with a memory BAR behind the bridge. -/
def bridgedHost : BridgedTopology where
  bus := .cons 1 0 bareBridge (.cons 0 0 faultyCard .nil .nil) .nil
  formed := .bridge ⟨by decide, by decide, by decide, by decide, .inl rfl⟩ (by decide)
    ⟨by decide, by decide⟩
    (.func ⟨by decide, by decide, by decide, by decide, .inl rfl⟩ (by decide) .nil) .nil
  bridges_le := by decide
  commands c hc := by
    obtain rfl : c = bareBridge := List.mem_singleton.1 hc
    rw [CommandRegs]
    decide

def unusedHost : BridgedTopology :=
  { Topology.vacant with commands := fun _ hc => absurd hc List.not_mem_nil }

theorem bareBridge_unready : ¬ MastersReady bridgedHost.bus := by
  intro hready
  have hbars : HasBars faultyCard := ⟨0, by decide, by decide⟩
  obtain hdec | hmaster := hready bareBridge _ _ (.here (by decide)) (.inl hbars)
  · obtain ⟨i, hi, hbar⟩ | hrom := hdec
    · have hi' : i < 2 := hi
      interval_cases i
      · exact absurd hbar (by decide)
      · exact absurd hbar (by decide)
    · exact absurd hrom (by decide)
  · exact absurd hmaster (by decide)

/-- The bridge forwards to the card, but not the DMA of the card. -/
theorem bareBridge_blocks_dma : ∃ depth, ∀ k, ∃ ctx₀ ctx₁,
    pciWalk (depth + k) bridgedHost.bus unusedHost.bus = some (ctx₀, ctx₁) ∧
      ¬ ForwardingEnabled ctx₀ ∧ ForwardingEnabled ctx₁ := by
  refine pciWalk_satisfies bridgedHost.toTopology unusedHost.toTopology (fun X s h hall => ?_)
    (fun X s h => ?_)
  · exact bareBridge_unready ((h.forwarding_iff bridgedHost).1 hall)
  · refine (h.forwarding_iff unusedHost).2 fun c below rest hin => ?_
    cases hin

end Pegasos2.Pci
