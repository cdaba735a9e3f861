import Pegasos2.PciNumbering
import Pegasos2.Packing

namespace Pegasos2.Pci
open Packing
set_option autoImplicit true

theorem and_not_and_and (x m : BitVec w) : (x &&& ~~~m) &&& (x &&& m) = 0#w := by
  apply BitVec.eq_of_getLsbD_eq
  intro i hi
  simp only [BitVec.getLsbD_and, BitVec.getLsbD_not, BitVec.getLsbD_zero, hi, decide_true,
    Bool.true_and]
  cases x.getLsbD i <;> cases m.getLsbD i <;> rfl

theorem and_not_add_and (x m : BitVec w) : (x &&& ~~~m) + (x &&& m) = x := by
  rw [BitVec.add_eq_or_of_and_eq_zero _ _ (and_not_and_and x m)]
  apply BitVec.eq_of_getLsbD_eq
  intro i hi
  simp only [BitVec.getLsbD_or, BitVec.getLsbD_and, BitVec.getLsbD_not, hi, decide_true,
    Bool.true_and]
  cases x.getLsbD i <;> cases m.getLsbD i <;> rfl

theorem toNat_le_and_not (x m : BitVec w) : x.toNat ≤ (x &&& ~~~m).toNat + m.toNat := by
  have hsum := BitVec.toNat_add_of_and_eq_zero (and_not_and_and x m)
  rw [and_not_add_and] at hsum
  have hle : (x &&& m).toNat ≤ m.toNat := by
    rw [BitVec.toNat_and]
    exact Nat.and_le_right
  omega

theorem le_alignUp (v a : Word) (ha : a ≠ 0#32) (hlt : v.toNat + (a.toNat - 1) < 2 ^ 32) :
    v.toNat ≤ (alignUp v a).toNat := by
  have ha' : 0 < a.toNat := Nat.pos_of_ne_zero fun h => ha (BitVec.eq_of_toNat_eq h)
  have hm : (a - 1#32).toNat = a.toNat - 1 := by
    rw [BitVec.toNat_sub_of_le (by rw [BitVec.le_def]; exact ha')]
    rfl
  have hx : (v + (a - 1#32)).toNat = v.toNat + (a.toNat - 1) := by
    rw [BitVec.toNat_add, hm, Nat.mod_eq_of_lt hlt]
  have h := toNat_le_and_not (v + (a - 1#32)) (a - 1#32)
  rw [hx, hm] at h
  rw [alignUp]
  omega

theorem toNat_and_not_pow (x : BitVec w) (hk : k < w) :
    (x &&& ~~~(BitVec.ofNat w (2 ^ k) - 1#w)).toNat = x.toNat / 2 ^ k * 2 ^ k := by
  have hpow : 2 ^ k < 2 ^ w := Nat.pow_lt_pow_right (by decide) hk
  have hpos : 0 < 2 ^ k := Nat.two_pow_pos k
  have hm : BitVec.ofNat w (2 ^ k) - 1#w = BitVec.ofNat w (2 ^ k - 1) := by
    rw [BitVec.ofNat_sub_ofNat_of_le _ _ (Nat.lt_of_le_of_lt hpos hpow) hpos]
  have hx : x.toNat / 2 ^ k * 2 ^ k < 2 ^ w :=
    Nat.lt_of_le_of_lt (Nat.div_mul_le_self _ _) x.isLt
  have heq : x &&& ~~~(BitVec.ofNat w (2 ^ k) - 1#w) =
      BitVec.ofNat w (x.toNat / 2 ^ k * 2 ^ k) := by
    apply BitVec.eq_of_getLsbD_eq
    intro i hi
    rw [hm, BitVec.getLsbD_and, BitVec.getLsbD_not, BitVec.getLsbD_ofNat, BitVec.getLsbD_ofNat,
      Nat.testBit_two_pow_sub_one, ← Nat.shiftRight_eq_div_pow, ← Nat.shiftLeft_eq,
      Nat.testBit_shiftLeft, Nat.testBit_shiftRight]
    by_cases hik : i < k
    · simp [hi, hik]
    · have hadd : k + (i - k) = i := by omega
      simp [hi, hik, hadd, BitVec.getLsbD]
      intro _
      omega
  rw [heq, BitVec.toNat_ofNat, Nat.mod_eq_of_lt hx]

theorem alignUp_pow (v : Word) (hk : k < 32) (hlt : v.toNat + (2 ^ k - 1) < 2 ^ 32) :
    (alignUp v (BitVec.ofNat 32 (2 ^ k))).toNat = roundUp v.toNat (2 ^ k) := by
  have hpow : 2 ^ k < 2 ^ 32 := Nat.pow_lt_pow_right (by decide) hk
  have hpos : 0 < 2 ^ k := Nat.two_pow_pos k
  have hx : (v + (BitVec.ofNat 32 (2 ^ k) - 1#32)).toNat = v.toNat + (2 ^ k - 1) := by
    rw [BitVec.toNat_add, BitVec.toNat_sub, BitVec.toNat_ofNat, BitVec.toNat_ofNat,
      Nat.mod_eq_of_lt hpow]
    omega
  rw [alignUp, toNat_and_not_pow _ hk, hx, roundUp]

/-- An address range that the walk has assigned to a BAR or to an expansion ROM. -/
structure Range where
  loc : Loc
  offset : Nat
  space : Space
  base : Nat
  size : Nat
  deriving DecidableEq, Repr

def Range.stop (r : Range) : Nat := r.base + r.size

def Line.range : Line → Option Range
  | .bar loc offset space _ size base => some ⟨loc, offset, space, base.toNat, size.toNat⟩
  | _ => none

/-- The ranges that a report lists, in its order. -/
def ranges (out : List Line) : List Range := out.filterMap Line.range

theorem ranges_append (out out' : List Line) : ranges (out ++ out') = ranges out ++ ranges out' :=
  List.filterMap_append

/-- The ranges of one space. -/
def ofSpace (space : Space) (l : List Range) : List Range := l.filter (·.space = space)

theorem ofSpace_append (space : Space) (l l' : List Range) :
    ofSpace space (l ++ l') = ofSpace space l ++ ofSpace space l' := List.filter_append l l'

theorem mem_ofSpace : r ∈ ofSpace space l ↔ r ∈ l ∧ r.space = space := by
  rw [ofSpace, List.mem_filter, decide_eq_true_eq]

def regionStart : Space → Nat
  | .mem => 0x80000000
  | .pref => 0xA0000000
  | .io => 0x1000

def regionStop : Space → Nat
  | .mem => 0xA0000000
  | .pref => 0xC0000000
  | .io => 0x10000

def Range.InRegion (r : Range) : Prop :=
  regionStart r.space ≤ r.base ∧ r.stop ≤ regionStop r.space

def Alloc.mark (a : Alloc) (space : Space) : Nat := (a.next space).toNat

def Alloc.InRegion (a : Alloc) : Prop :=
  ∀ space, regionStart space ≤ a.mark space ∧ a.mark space ≤ regionStop space

theorem Alloc.set_mark (a : Alloc) (v : Word) (space space' : Space) :
    (a.set v space).mark space' = if space' = space then v.toNat else a.mark space' := by
  cases space <;> cases space' <;> rfl

/-- The ranges `l` are what takes the allocators from `a` to `a'`. As long as they stay in their
regions, they lie one behind the other between the old and the new marks. -/
structure Allots (l : List Range) (a : Alloc) (out : List Line) (a' : Alloc) (out' : List Line) :
    Prop where
  ranges_eq : ranges out' = ranges out ++ l
  inRegion : a.InRegion → (∀ r ∈ l, r.InRegion) → a'.InRegion
  packed : a.InRegion → (∀ r ∈ l, r.InRegion) → ∀ space,
    Packed Range.base Range.stop (a.mark space) (ofSpace space l) (a'.mark space)

namespace Allots

theorem refl (a : Alloc) (out : List Line) : Allots [] a out a out where
  ranges_eq := (List.append_nil _).symm
  inRegion ha _ := ha
  packed _ _ _ := .nil

theorem trans (h : Allots l a out a₁ out₁) (h' : Allots l' a₁ out₁ a₂ out₂) :
    Allots (l ++ l') a out a₂ out₂ where
  ranges_eq := by rw [h'.ranges_eq, h.ranges_eq, List.append_assoc]
  inRegion ha hl := h'.inRegion
    (h.inRegion ha fun r hr => hl r (List.mem_append_left l' hr))
    (fun r hr => hl r (List.mem_append_right l hr))
  packed ha hl space := by
    have hl₁ : ∀ r ∈ l, r.InRegion := fun r hr => hl r (List.mem_append_left l' hr)
    have hl₂ : ∀ r ∈ l', r.InRegion := fun r hr => hl r (List.mem_append_right l hr)
    rw [ofSpace_append]
    exact (h.packed ha hl₁ space).append (h'.packed (h.inRegion ha hl₁) hl₂ space)

theorem report (h : Allots l a out a' out') (hline : ∀ x ∈ more, x.range = none) :
    Allots l a out a' (out' ++ more) where
  ranges_eq := by
    have hmore : ranges more = [] := List.filterMap_eq_nil_iff.2 hline
    rw [ranges_append, h.ranges_eq, hmore, List.append_nil]
  inRegion := h.inRegion
  packed := h.packed

end Allots

/-- A range that ends inside its region starts at or behind the allocator: an alignment that
wrapped around would have needed more than the region. -/
theorem mark_le_base {a : Alloc} (ha : a.InRegion) (hsize : size ≠ 0#32)
    (hr : Range.InRegion ⟨loc, offset, space, (alignUp (a.next space) size).toNat, size.toNat⟩) :
    a.mark space ≤ (alignUp (a.next space) size).toNat := by
  obtain ⟨hlo, hhi⟩ := hr
  obtain ⟨hmark, hmark'⟩ := ha space
  refine le_alignUp _ _ hsize ?_
  cases space with
  | mem => simp only [regionStart, regionStop, Range.stop, Alloc.mark] at *; omega
  | pref => simp only [regionStart, regionStop, Range.stop, Alloc.mark] at *; omega
  | io => simp only [regionStart, regionStop, Range.stop, Alloc.mark] at *; omega

theorem regionStop_lt (space : Space) : regionStop space < 2 ^ 32 := by
  cases space <;> decide

theorem assign_allots (acc : CfgAccess σ) (loc : Loc) (offset : Nat) (space : Space)
    (value : Word → Word) (b : Bars σ) (hsize : p.size ≠ 0#32) :
    Allots [⟨loc, offset, space, (alignUp (b.walk.alloc.next space) p.size).toNat, p.size.toNat⟩]
      b.walk.alloc b.walk.out (assign acc loc offset space p value b).walk.alloc
      (assign acc loc offset space p value b).walk.out := by
  generalize hr : Range.mk loc offset space (alignUp (b.walk.alloc.next space) p.size).toNat
    p.size.toNat = r
  have hbase : r.base = (alignUp (b.walk.alloc.next space) p.size).toNat := by rw [← hr]
  have hspace : r.space = space := by rw [← hr]
  have hmark : ∀ space', r.InRegion →
      ((assign acc loc offset space p value b).walk.alloc).mark space' =
        if space' = space then r.stop else b.walk.alloc.mark space' := by
    intro space' hin
    have hlt := Nat.lt_of_le_of_lt hin.2 (regionStop_lt r.space)
    rw [assign, Alloc.set_mark, BitVec.toNat_add, Nat.mod_eq_of_lt (by rw [← hr] at hlt; exact hlt),
      ← hr]
    rfl
  have hge (ha : b.walk.alloc.InRegion) (hin : r.InRegion) :
      b.walk.alloc.mark space ≤ r.base := hbase ▸ mark_le_base ha hsize (hr ▸ hin)
  refine ⟨?_, ?_, ?_⟩
  · rw [assign, ranges_append, ← hr]
    rfl
  · intro ha hin space'
    have hin' := hin r (List.mem_singleton_self r)
    rw [hmark space' hin']
    by_cases he : space' = space
    · rw [if_pos he, he]
      obtain ⟨hlo, hhi⟩ := hin'
      rw [hspace] at hlo hhi
      exact ⟨Nat.le_trans hlo (Nat.le_add_right _ _), hhi⟩
    · rw [if_neg he]
      exact ha space'
  · intro ha hin space'
    have hin' := hin r (List.mem_singleton_self r)
    rw [hmark space' hin']
    by_cases he : space' = space
    · have hf : ofSpace space' [r] = [r] := by simp [ofSpace, hspace, he]
      rw [if_pos he, hf, he]
      exact .singleton (hge ha hin') (Nat.le_add_right _ _)
    · have hf : ofSpace space' [r] = [] := by simp [ofSpace, hspace, Ne.symm he]
      rw [if_neg he, hf]
      exact .nil

/-- The scan of a function at `loc` allots ranges of that function. -/
def AllotsAt (loc : Loc) (w w' : Walk σ) : Prop :=
  ∃ l, (∀ r ∈ l, r.loc = loc) ∧ Allots l w.alloc w.out w'.alloc w'.out

namespace AllotsAt

theorem of_cfg (w : Walk σ) (c : σ) : AllotsAt loc w { w with cfg := c } :=
  ⟨[], fun _ hr => absurd hr List.not_mem_nil, .refl w.alloc w.out⟩

theorem trans (h : AllotsAt loc w w₁) (h' : AllotsAt loc w₁ w₂) : AllotsAt loc w w₂ := by
  obtain ⟨l, hl, hall⟩ := h
  obtain ⟨l', hl', hall'⟩ := h'
  exact ⟨l ++ l', fun r hr => (List.mem_append.1 hr).elim (hl r) (hl' r), hall.trans hall'⟩

theorem report (w : Walk σ) (c : σ) (x : Line) (hx : x.range = none) :
    AllotsAt loc w { w with cfg := c, out := w.out ++ [x] } :=
  ⟨[], fun _ hr => absurd hr List.not_mem_nil, (Allots.refl w.alloc w.out).report fun y hy => by
    rw [List.mem_singleton.1 hy, hx]⟩

end AllotsAt

section Function

variable (acc : CfgAccess σ) (loc : Loc)

theorem assign_allotsAt (b : Bars σ) (hsize : p.size ≠ 0#32) :
    AllotsAt loc b.walk (assign acc loc offset space p value b).walk :=
  ⟨_, fun _ hr => by rw [List.mem_singleton.1 hr],
    assign_allots acc loc offset space value b hsize⟩

theorem barStep_allotsAt (i : Nat) (b : Bars σ) :
    AllotsAt loc b.walk (barStep acc loc i b).1.walk := by
  simp only [barStep]
  split
  next h => exact .of_cfg _ _
  next h =>
    refine AllotsAt.trans ?_ (assign_allotsAt acc loc _ h)
    exact .of_cfg _ _

theorem barLoop_allotsAt (nb n i : Nat) (b : Bars σ) :
    AllotsAt loc b.walk (barLoop acc loc nb n i b).walk := by
  induction n generalizing i b with
  | zero => exact .of_cfg _ _
  | succ n ih =>
    rw [barLoop]
    split
    · exact (barStep_allotsAt acc loc i b).trans (ih _ _)
    · exact .of_cfg _ _

theorem romStep_allotsAt (b : Bars σ) :
    AllotsAt loc b.walk (romStep acc loc offset b).walk := by
  simp only [romStep]
  split
  next h => exact .of_cfg _ _
  next h =>
    refine AllotsAt.trans ?_ (assign_allotsAt acc loc _ h)
    exact .of_cfg _ _

theorem enterFunction_allotsAt (h : Header) (w : Walk σ) :
    AllotsAt loc w (enterFunction acc loc h w) := by
  have hdevice : AllotsAt loc w { w with
      out := w.out ++ [.device loc h.vendor h.device h.cls h.headerType] } :=
    .report w w.cfg _ rfl
  have hbars : AllotsAt loc w (probeAssignAndPrintBars acc loc h.headerType { w with
      out := w.out ++ [.device loc h.vendor h.device h.cls h.headerType] }).walk :=
    (hdevice.trans (barLoop_allotsAt acc loc _ _ _ ⟨_, 0#16⟩)).trans (romStep_allotsAt acc loc _)
  simp only [enterFunction]
  generalize probeAssignAndPrintBars acc loc h.headerType _ = b at hbars ⊢
  by_cases hcmd : b.cmdBits = 0#16
  · rw [if_pos hcmd]
    exact hbars
  · rw [if_neg hcmd]
    exact hbars.trans (.report b.walk _ _ rfl)

end Function

/-- What the scan of a function allots, in terms of the state of the scan. -/
theorem entered_allots (b dev fn : Nat) (c : Config) (s : Scan) :
    ∃ l, (∀ r ∈ l, r.loc = ⟨BitVec.ofNat 8 b, dev, fn⟩) ∧
      Allots l s.alloc s.out (entered b dev fn c s).alloc (entered b dev fn c s).out :=
  enterFunction_allotsAt funcAccess _ _ (s.walk c)

def granuleBits : Space → Nat
  | .mem => 20
  | .pref => 20
  | .io => 12

theorem granule_eq (space : Space) : granule space = BitVec.ofNat 32 (2 ^ granuleBits space) := by
  cases space <;> rfl

theorem granule_dvd_regionStop (space : Space) : 2 ^ granuleBits space ∣ regionStop space := by
  cases space <;> decide

theorem alignUp_granule (v : Word) (space : Space) (h : v.toNat ≤ regionStop space) :
    (alignUp v (granule space)).toNat = roundUp v.toNat (2 ^ granuleBits space) := by
  rw [granule_eq]
  refine alignUp_pow v ?_ ?_
  · cases space <;> decide
  · cases space <;> simp only [regionStop, granuleBits] at * <;> omega

theorem Alloc.pad_mark {a : Alloc} (ha : a.InRegion) (space : Space) :
    a.pad.mark space = roundUp (a.mark space) (2 ^ granuleBits space) := by
  have h := alignUp_granule (a.next space) space (ha space).2
  cases space <;> exact h

theorem Alloc.pad_inRegion {a : Alloc} (ha : a.InRegion) : a.pad.InRegion := by
  intro space
  obtain ⟨hlo, hhi⟩ := ha space
  rw [Alloc.pad_mark ha]
  exact ⟨hlo.trans (le_roundUp _ (Nat.two_pow_pos _)),
    roundUp_le hhi (granule_dvd_regionStop space)⟩

theorem Alloc.padFrom_mark {start stop : Alloc} (hstop : stop.InRegion) (space : Space) :
    (start.padFrom stop).mark space =
      if start.mark space < stop.mark space then
        roundUp (stop.mark space) (2 ^ granuleBits space)
      else stop.mark space := by
  have h := alignUp_granule (stop.next space) space (hstop space).2
  have hlt : stop.next space > start.next space ↔ start.mark space < stop.mark space :=
    BitVec.lt_def
  have hnext : (start.padFrom stop).next space = if stop.next space > start.next space
      then alignUp (stop.next space) (granule space) else stop.next space := by
    cases space <;> rfl
  rw [Alloc.mark, hnext]
  by_cases hc : stop.next space > start.next space
  · rw [if_pos hc, if_pos (hlt.1 hc), h]
    rfl
  · rw [if_neg hc, if_neg (fun h' => hc (hlt.2 h'))]
    rfl

theorem Alloc.padFrom_inRegion {start stop : Alloc} (hstop : stop.InRegion) :
    (start.padFrom stop).InRegion := by
  intro space
  obtain ⟨hlo, hhi⟩ := hstop space
  rw [Alloc.padFrom_mark hstop]
  split
  · exact ⟨hlo.trans (le_roundUp _ (Nat.two_pow_pos _)),
      roundUp_le hhi (granule_dvd_regionStop space)⟩
  · exact ⟨hlo, hhi⟩

theorem opened_alloc (b dev fn : Nat) (c : Config) (s : Scan) :
    (opened b dev fn c s).alloc = (entered b dev fn c s).alloc.pad := by
  rw [opened, openBridge]

theorem closed_alloc (b dev fn : Nat) (c : Config) (s s' : Scan) :
    (closed b dev fn c s s').alloc = (opened b dev fn c s).alloc.padFrom s'.alloc := by
  rw [closed, closeBridge, Scan.walk]

theorem opened_ranges (b dev fn : Nat) (c : Config) (s : Scan) :
    ranges (opened b dev fn c s).out = ranges (entered b dev fn c s).out := by
  rw [opened, openBridge, ranges_append]
  exact List.append_nil _

theorem closed_ranges (b dev fn : Nat) (c : Config) (s s' : Scan) :
    ranges (closed b dev fn c s s').out = ranges s'.out := by
  simp only [closed, closeBridge, enableForwarding, bridgeProgramWindow, ranges_append, Scan.walk]
  exact List.append_nil _

end Pegasos2.Pci
