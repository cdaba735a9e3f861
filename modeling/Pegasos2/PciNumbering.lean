import Pegasos2.PciTraversal

namespace Pegasos2.Pci
set_option autoImplicit true

def Line.visit : Line → Option Loc
  | .device loc _ _ _ _ => some loc
  | _ => none

/-- The functions that a report lists, in its order. -/
def visits (out : List Line) : List Loc := out.filterMap Line.visit

theorem visits_append (out out' : List Line) : visits (out ++ out') = visits out ++ visits out' :=
  List.filterMap_append

theorem assign_visits (acc : CfgAccess σ) (b : Bars σ) :
    visits (assign acc loc offset space p value b).walk.out = visits b.walk.out := by
  simp only [assign, visits_append]
  exact List.append_nil _

theorem barStep_visits (acc : CfgAccess σ) (b : Bars σ) :
    visits (barStep acc loc i b).1.walk.out = visits b.walk.out := by
  simp only [barStep]
  split
  · rfl
  · exact assign_visits acc ⟨{ b.walk with cfg := _ }, b.cmdBits⟩

theorem barLoop_visits (acc : CfgAccess σ) (n i : Nat) (b : Bars σ) :
    visits (barLoop acc loc nb n i b).walk.out = visits b.walk.out := by
  induction n generalizing i b with
  | zero => rfl
  | succ n ih =>
    rw [barLoop]
    split
    · rw [ih, barStep_visits]
    · rfl

theorem romStep_visits (acc : CfgAccess σ) (b : Bars σ) :
    visits (romStep acc loc offset b).walk.out = visits b.walk.out := by
  simp only [romStep]
  split
  · rfl
  · exact assign_visits acc ⟨{ b.walk with cfg := _ }, b.cmdBits⟩

theorem enterFunction_visits (acc : CfgAccess σ) (loc : Loc) (h : Header) (w : Walk σ) :
    visits (enterFunction acc loc h w).out = visits w.out ++ [loc] := by
  have hbars : visits (probeAssignAndPrintBars acc loc h.headerType { w with
      out := w.out ++ [.device loc h.vendor h.device h.cls h.headerType] }).walk.out =
      visits w.out ++ [loc] := by
    rw [probeAssignAndPrintBars, romStep_visits, barLoop_visits, visits_append]
    rfl
  simp only [enterFunction]
  generalize probeAssignAndPrintBars acc loc h.headerType _ = b at hbars ⊢
  by_cases hcmd : b.cmdBits = 0#16
  · rw [if_pos hcmd]
    exact hbars
  · rw [if_neg hcmd, visits_append, hbars]
    exact List.append_nil _

theorem openBridge_visits (acc : CfgAccess σ) (bus sec : BitVec 8) (w : Walk σ) :
    visits (openBridge acc bus sec w).out = visits w.out := by
  rw [openBridge, visits_append]
  exact List.append_nil _

theorem closeBridge_visits (acc : CfgAccess σ) (start : Alloc) (highest : BitVec 8)
    (w : Walk σ) : visits (closeBridge acc start highest w).out = visits w.out := by
  simp only [closeBridge, enableForwarding, bridgeProgramWindow, visits_append]
  exact List.append_nil _

namespace Bus

/-- The functions of a numbered tree in depth-first preorder, the bus itself being `b`. -/
def locs (b : Nat) : Bus → List Loc
  | nil => []
  | cons dev fn c below rest =>
    ⟨BitVec.ofNat 8 b, dev, fn⟩ ::
      ((if isBridge c then below.locs (secondary c) else []) ++ rest.locs b)

/-- All bridges in depth-first preorder. -/
def allBridges : Bus → List Config
  | nil => []
  | cons _ _ c below rest =>
    (if isBridge c then c :: below.allBridges else []) ++ rest.allBridges

/-- The bridges on the bus itself. -/
def siblings : Bus → List Config
  | nil => []
  | cons _ _ c _ rest => (if isBridge c then [c] else []) ++ rest.siblings

/-- The bus numbers behind the bridges of a bus. -/
def secondaries (X : Bus) : List Nat := X.allBridges.map secondary

theorem allBridges_func (h : isBridge c = false) :
    (cons dev fn c below rest).allBridges = rest.allBridges := by
  rw [allBridges, h, if_neg Bool.false_ne_true, List.nil_append]

theorem allBridges_bridge (h : isBridge c = true) :
    (cons dev fn c below rest).allBridges = c :: below.allBridges ++ rest.allBridges := by
  rw [allBridges, if_pos h]

theorem locs_func (h : isBridge c = false) :
    (cons dev fn c below rest).locs b = ⟨BitVec.ofNat 8 b, dev, fn⟩ :: rest.locs b := by
  rw [locs, h, if_neg Bool.false_ne_true, List.nil_append]

theorem locs_bridge (h : isBridge c = true) :
    (cons dev fn c below rest).locs b =
      ⟨BitVec.ofNat 8 b, dev, fn⟩ :: (below.locs (secondary c) ++ rest.locs b) := by
  rw [locs, if_pos h]

end Bus

/-- The same functions in the same places, with the same identification registers. -/
inductive SameFunctions : Bus → Bus → Prop
  | nil : SameFunctions .nil .nil
  | cons (hid : c' 0 = c 0) (hcls : c' 2 = c 2) (htype : c' 3 = c 3)
      (hbelow : SameFunctions below below') (hrest : SameFunctions rest rest') :
      SameFunctions (.cons dev fn c below rest) (.cons dev fn c' below' rest')

/-- Bus number `m` is behind the bridge, by its registers. -/
def Covers (c : Config) (m : Nat) : Prop := secondary c ≤ m ∧ m ≤ subordinate c

/-- The bus numbers of a bridge on bus `b`, with `below` behind it and the bus going on with
`rest`. -/
structure BridgeNumbers (b : Nat) (c : Config) (below rest : Bus) : Prop where
  primary_eq : primary c = b
  exact : ∀ m, Covers c m ↔ m = secondary c ∨ m ∈ below.secondaries
  nested : ∀ c' ∈ below.allBridges, ∀ m, Covers c' m → Covers c m
  apart : ∀ c' ∈ rest.siblings, ∀ m, Covers c m → ¬ Covers c' m

/-- Each bridge of the tree has its bus numbers. -/
inductive BusNumbers : Nat → Bus → Prop
  | nil : BusNumbers b .nil
  | func (hbridge : isBridge c = false) (hrest : BusNumbers b rest) :
      BusNumbers b (.cons dev fn c below rest)
  | bridge (hbridge : isBridge c = true) (hnumbers : BridgeNumbers b c below rest)
      (hbelow : BusNumbers (secondary c) below) (hrest : BusNumbers b rest) :
      BusNumbers b (.cons dev fn c below rest)

/-- The numbering in preorder, from `n` on. -/
inductive Numbered : Nat → Nat → Bus → Prop
  | nil : Numbered b n .nil
  | func (hbridge : isBridge c = false) (hrest : Numbered b n rest) :
      Numbered b n (.cons dev fn c below rest)
  | bridge (hbridge : isBridge c = true) (hpri : primary c = b) (hsec : secondary c = n)
      (hsub : subordinate c = n + below.bridges) (hbelow : Numbered n (n + 1) below)
      (hrest : Numbered b (n + 1 + below.bridges) rest) :
      Numbered b n (.cons dev fn c below rest)

namespace Numbered

theorem bounds (h : Numbered b n X) (hc : c ∈ X.allBridges) :
    n ≤ secondary c ∧ secondary c ≤ subordinate c ∧ subordinate c < n + X.bridges := by
  induction h with
  | nil => cases hc
  | func hbridge _ ih =>
    rw [Bus.allBridges_func hbridge] at hc
    rw [Bus.bridges_func hbridge]
    exact ih hc
  | bridge hbridge _ hsec hsub _ _ ihb ihr =>
    rw [Bus.allBridges_bridge hbridge, List.mem_append, List.mem_cons] at hc
    rw [Bus.bridges_bridge hbridge]
    obtain (rfl | hc) | hc := hc
    · omega
    · obtain ⟨h₁, h₂, h₃⟩ := ihb hc
      omega
    · obtain ⟨h₁, h₂, h₃⟩ := ihr hc
      omega

/-- The secondary numbers are given out one after the other, in preorder. -/
theorem secondaries_eq (h : Numbered b n X) : X.secondaries = List.range' n X.bridges := by
  induction h with
  | nil => rfl
  | func hbridge _ ih =>
    rw [Bus.secondaries, Bus.allBridges_func hbridge, Bus.bridges_func hbridge]
    exact ih
  | @bridge c b n below rest dev fn hbridge _ hsec _ _ _ ihb ihr =>
    rw [Bus.secondaries] at ihb ihr ⊢
    rw [Bus.allBridges_bridge hbridge, List.map_append, List.map_cons, ihb, ihr, hsec,
      Bus.bridges_bridge hbridge, ← List.range'_succ, Nat.add_assoc n 1, Nat.add_comm 1,
      List.range'_append_1]

theorem siblings_subset (X : Bus) : ∀ c ∈ X.siblings, c ∈ X.allBridges := by
  induction X with
  | nil => exact fun c hc => hc
  | cons dev fn c below rest _ ih =>
    intro c' hc'
    rw [Bus.siblings, List.mem_append] at hc'
    rw [Bus.allBridges, List.mem_append]
    obtain hc' | hc' := hc'
    · cases hb : isBridge c with
      | true =>
        rw [hb] at hc'
        exact .inl (List.mem_cons.2 (.inl (List.mem_singleton.1 hc')))
      | false =>
        rw [hb] at hc'
        exact absurd hc' List.not_mem_nil
    · exact .inr (ih c' hc')

theorem bridgeNumbers {below rest : Bus} (hpri : primary c = b) (hsec : secondary c = n)
    (hsub : subordinate c = n + below.bridges) (hbelow : Numbered n (n + 1) below)
    (hrest : Numbered b (n + 1 + below.bridges) rest) : BridgeNumbers b c below rest where
  primary_eq := hpri
  exact m := by
    rw [hbelow.secondaries_eq, List.mem_range'_1, Covers, hsec, hsub]
    omega
  nested c' hc' m hm := by
    obtain ⟨h₁, h₂, h₃⟩ := hbelow.bounds hc'
    rw [Covers] at hm ⊢
    omega
  apart c' hc' m hm hm' := by
    obtain ⟨h₁, h₂, h₃⟩ := hrest.bounds (siblings_subset rest c' hc')
    rw [Covers] at hm hm'
    omega

theorem busNumbers (h : Numbered b n X) : BusNumbers b X := by
  induction h with
  | nil => exact .nil
  | func hbridge _ ih => exact .func hbridge ih
  | bridge hbridge hpri hsec hsub hbelow hrest ihb ihr =>
    exact .bridge hbridge (bridgeNumbers hpri hsec hsub hbelow hrest) (hsec ▸ ihb) ihr

end Numbered

section Scan

variable (b dev fn : Nat) (c : Config) (s s' : Scan)

theorem entered_visits :
    visits (entered b dev fn c s).out = visits s.out ++ [⟨BitVec.ofNat 8 b, dev, fn⟩] :=
  enterFunction_visits funcAccess _ _ (s.walk c)

theorem opened_visits :
    visits (opened b dev fn c s).out = visits s.out ++ [⟨BitVec.ofNat 8 b, dev, fn⟩] := by
  rw [opened, openBridge_visits, entered_visits]

theorem closed_visits : visits (closed b dev fn c s s').out = visits s'.out :=
  closeBridge_visits funcAccess _ _ (s'.walk (opened b dev fn c s).cfg)

end Scan

namespace Scans

theorem bridges_eq (h : Scans lo cur b s X X' s') : X'.bridges = X.bridges := by
  induction h with
  | nil => rfl
  | func _ hbridge _ ih =>
    rw [Bus.bridges_func ((entered_isBridge _ _ _ _ _).trans hbridge), ih,
      Bus.bridges_func hbridge]
  | bridge _ hbridge _ _ _ _ ihb ihr =>
    rw [Bus.bridges_bridge ((closed_isBridge _ _ _ _ _ _).trans hbridge), ihb, ihr,
      Bus.bridges_bridge hbridge]

theorem sameFunctions (h : Scans lo cur b s X X' s') : SameFunctions X X' := by
  induction h with
  | nil => exact .nil
  | @func lo cur dev fn c b s _ _ _ _ _ _ ih =>
    have hkeep := (entered_touches b dev fn c s).frame
    exact .cons (hkeep 0 (by decide)) (hkeep 2 (by decide)) (hkeep 3 (by decide)) .nil ih
  | @bridge lo cur dev fn c b s _ _ s₁ _ _ _ _ _ _ _ _ _ ihb ihr =>
    have hkeep := (closed_touches b dev fn c s s₁).frame
    exact .cons (hkeep 0 (by decide)) (hkeep 2 (by decide)) (hkeep 3 (by decide)) ihb ihr

/-- The bus numbers of a bridge when the scan of the bus behind it has ended. -/
theorem numbers (h : Scans 0 none s.next ((opened b dev fn c s).scan (s.next + 1)) X X' s')
    (hreset : BridgeReset c) (hb : b < 256) (hle : s'.next ≤ 256) :
    primary (closed b dev fn c s s').cfg = b ∧ secondary (closed b dev fn c s s').cfg = s.next ∧
      subordinate (closed b dev fn c s s').cfg = s.next + X.bridges := by
  have hnext := h.next_eq
  rw [Walk.scan_next] at hnext
  obtain ⟨hpri, hsec, hsub⟩ := closed_numbers b dev fn s s' hreset hb (by omega) (by omega) hle
  exact ⟨hpri, hsec, by omega⟩

theorem numbered (h : Scans lo cur b s X X' s') (hb : b < 256) : Numbered b s.next X' := by
  induction h with
  | nil => exact .nil
  | func _ hbridge _ ih =>
    have hrec := ih hb
    rw [Walk.scan_next] at hrec
    exact .func ((entered_isBridge _ _ _ _ _).trans hbridge) hrec
  | bridge _ hbridge hreset hle hbelow _ ihb ihr =>
    obtain ⟨hpri, hsec, hsub⟩ := hbelow.numbers hreset hb hle
    have hnext := hbelow.next_eq
    have hdown := ihb (by rw [Walk.scan_next] at hnext; omega)
    have hon := ihr hb
    rw [Walk.scan_next] at hnext hdown hon
    rw [← hbelow.bridges_eq] at hsub hnext
    rw [hnext] at hon
    exact .bridge ((closed_isBridge _ _ _ _ _ _).trans hbridge) hpri hsec hsub hdown hon

theorem visits_eq (h : Scans lo cur b s X X' s') (hb : b < 256) :
    visits s'.out = visits s.out ++ X'.locs b := by
  induction h with
  | nil => exact (List.append_nil _).symm
  | func _ hbridge _ ih =>
    rw [ih hb, Walk.scan_out, entered_visits, List.append_assoc, List.singleton_append,
      Bus.locs_func ((entered_isBridge _ _ _ _ _).trans hbridge)]
  | bridge _ hbridge hreset hle hbelow _ ihb ihr =>
    obtain ⟨-, hsec, -⟩ := hbelow.numbers hreset hb hle
    have hnext := hbelow.next_eq
    rw [Walk.scan_next] at hnext
    rw [ihr hb, Walk.scan_out, closed_visits, ihb (by omega), Walk.scan_out, opened_visits,
      List.append_assoc, List.append_assoc, List.singleton_append,
      Bus.locs_bridge ((closed_isBridge _ _ _ _ _ _).trans hbridge), hsec]

/-- A function of the scanned tree is on the bus itself or on one of the buses behind it. -/
theorem loc_bounds (h : Scans lo cur b s X X' s') (hb : b < 256) (hle : s'.next ≤ 256)
    (hl : l ∈ X'.locs b) :
    l.bus.toNat = b ∧ lo ≤ 8 * l.dev + l.fn ∨
      s.next ≤ l.bus.toNat ∧ l.bus.toNat < s'.next := by
  induction h with
  | nil => cases hl
  | @func lo cur dev fn c b s _ _ _ hplace hbridge _ ih =>
    rw [Bus.locs_func ((entered_isBridge _ _ _ _ _).trans hbridge), List.mem_cons] at hl
    have hpos := hplace.pos
    obtain rfl | hl := hl
    · exact .inl ⟨by simpa using hb, hpos⟩
    · obtain ⟨h₁, h₂⟩ | h := ih hb hle hl
      · exact .inl ⟨h₁, by omega⟩
      · exact .inr h
  | @bridge lo cur dev fn c b s below below' s₁ rest rest' s' hplace hbridge hreset hle' hbelow
      hrest ihb ihr =>
    obtain ⟨-, hsec, -⟩ := hbelow.numbers hreset hb hle'
    have hnext := hbelow.next_eq
    have hnext' := hrest.next_eq
    have hpos := hplace.pos
    rw [Walk.scan_next] at hnext hnext'
    rw [Bus.locs_bridge ((closed_isBridge _ _ _ _ _ _).trans hbridge), List.mem_cons,
      List.mem_append, hsec] at hl
    obtain rfl | hl | hl := hl
    · exact .inl ⟨by simpa using hb, hpos⟩
    · have hbounds := ihb (by omega) hle' hl
      rw [Walk.scan_next] at hbounds
      omega
    · have hbounds := ihr hb hle hl
      rw [Walk.scan_next] at hbounds
      omega

theorem locs_nodup (h : Scans lo cur b s X X' s') (hb : b < s.next) (hle : s'.next ≤ 256) :
    (X'.locs b).Nodup := by
  induction h with
  | nil => exact List.nodup_nil
  | @func lo cur dev fn c b s _ _ _ hplace hbridge hrest ih =>
    have hnext := hrest.next_eq
    rw [Walk.scan_next] at hnext
    rw [Bus.locs_func ((entered_isBridge _ _ _ _ _).trans hbridge), List.nodup_cons]
    refine ⟨fun hin => ?_, ih (by rw [Walk.scan_next]; exact hb) hle⟩
    have hbounds := hrest.loc_bounds (by omega) hle hin
    simp only [Walk.scan_next, BitVec.toNat_ofNat] at hbounds
    omega
  | @bridge lo cur dev fn c b s below below' s₁ rest rest' s' hplace hbridge hreset hle' hbelow
      hrest ihb ihr =>
    have hnext := hbelow.next_eq
    have hnext' := hrest.next_eq
    rw [Walk.scan_next] at hnext hnext'
    obtain ⟨-, hsec, -⟩ := hbelow.numbers hreset (by omega : b < 256) hle'
    have hdown := ihb (by rw [Walk.scan_next]; omega) hle'
    have hon := ihr (by rw [Walk.scan_next]; omega) hle
    rw [Bus.locs_bridge ((closed_isBridge _ _ _ _ _ _).trans hbridge), hsec, List.nodup_cons,
      List.nodup_append, List.mem_append]
    refine ⟨fun hin => ?_, hdown, hon, fun l hl l' hl' he => ?_⟩
    · obtain hin | hin := hin
      · have hbounds := hbelow.loc_bounds (by omega) hle' hin
        simp only [Walk.scan_next, BitVec.toNat_ofNat] at hbounds
        omega
      · have hbounds := hrest.loc_bounds (by omega) hle hin
        simp only [Walk.scan_next, BitVec.toNat_ofNat] at hbounds
        omega
    · subst he
      have hbounds := hbelow.loc_bounds (by omega) hle' hl
      have hbounds' := hrest.loc_bounds (by omega) hle hl'
      rw [Walk.scan_next] at hbounds hbounds'
      omega

end Scans

/-- The outcome of the walk of one host. -/
structure Enumerated (t : Topology) (ctx : Ctx) : Prop where
  sameFunctions : SameFunctions t.bus ctx.walk.cfg
  visits_eq : visits ctx.walk.out = ctx.walk.cfg.locs 0
  visits_nodup : (visits ctx.walk.out).Nodup
  secondaries_eq : ctx.walk.cfg.secondaries = List.range' 1 t.bus.bridges
  busNumbers : BusNumbers 0 ctx.walk.cfg

theorem Scans.enumerated (t : Topology) (h : Scans 0 none 0 Scan.reset t.bus X s) :
    Enumerated t (s.ctx X) := by
  have hnext := h.next_eq
  have hle := t.bridges_le
  have hfew : s.next ≤ 256 := by
    rw [hnext, Scan.reset]
    simp only
    omega
  have hnumbered := h.numbered (by decide)
  have hvisits : visits s.out = X.locs 0 := h.visits_eq (by decide)
  exact {
    sameFunctions := h.sameFunctions
    visits_eq := hvisits
    visits_nodup := hvisits ▸ h.locs_nodup (by decide) hfew
    secondaries_eq := hnumbered.secondaries_eq.trans (congrArg (List.range' 1) h.bridges_eq)
    busNumbers := hnumbered.busNumbers }

/-- `pci_walk` ends, whatever is behind the two hosts, and it enumerates both. -/
theorem pciWalk_enumerates (t₀ t₁ : Topology) :
    ∃ depth, ∀ k, ∃ ctx₀ ctx₁, pciWalk (depth + k) t₀.bus t₁.bus = some (ctx₀, ctx₁) ∧
      Enumerated t₀ ctx₀ ∧ Enumerated t₁ ctx₁ :=
  pciWalk_satisfies t₀ t₁ (fun _ _ h => h.enumerated) (fun _ _ h => h.enumerated)

end Pegasos2.Pci
