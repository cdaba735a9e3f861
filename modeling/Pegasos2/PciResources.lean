import Pegasos2.PciBars
import Mathlib.Data.List.Nodup

namespace Pegasos2.Pci
open Packing
set_option autoImplicit true

/-- The mark of an allocator of a space after `bars` from `x` on, each at a multiple of its
size. -/
def packBars (space : Space) : List Bar → Nat → Nat
  | [], x => x
  | bar :: l, x =>
    packBars space l (if bar.space = space then roundUp x bar.size + bar.size else x)

/-- The mark after the functions of a bus, with what is behind a bridge padded to the
granularity of its window on both sides. -/
def Bus.extent (space : Space) : Bus → Nat → Nat
  | nil, x => x
  | cons _ _ c below rest, x =>
    let own := packBars space (functionBars c) x
    rest.extent space
      (if isBridge c then
        roundUp (below.extent space (roundUp own (2 ^ granuleBits space)))
          (2 ^ granuleBits space)
      else own)

theorem le_packBars (space : Space) (bars : List Bar) (hpos : ∀ bar ∈ bars, 0 < bar.size)
    (x : Nat) : x ≤ packBars space bars x := by
  induction bars generalizing x with
  | nil => exact Nat.le_refl x
  | cons bar l ih =>
    have hrest := ih (fun bar' hb => hpos bar' (List.mem_cons_of_mem _ hb))
    rw [packBars]
    split
    · have hle := le_roundUp x (hpos bar List.mem_cons_self)
      exact Nat.le_trans (by omega) (hrest _)
    · exact hrest x

theorem size_le_packBars {bars : List Bar} (hpos : ∀ bar ∈ bars, 0 < bar.size)
    (hb : bar ∈ bars) (x : Nat) : bar.size ≤ packBars bar.space bars x := by
  induction bars generalizing x with
  | nil => exact absurd hb List.not_mem_nil
  | cons bar' l ih =>
    have hpos' : ∀ bar ∈ l, 0 < bar.size := fun b hb => hpos b (List.mem_cons_of_mem _ hb)
    rw [packBars]
    obtain rfl | hb := List.mem_cons.1 hb
    · rw [if_pos rfl]
      exact Nat.le_trans (Nat.le_add_left _ _) (le_packBars _ l hpos' _)
    · exact ih hpos' hb _

/-- A range that lies in its region is too small for its alignment to have wrapped around. -/
theorem InRegion.no_wrap {a : Alloc} (ha : a.InRegion)
    (hr : Range.InRegion ⟨loc, offset, space, base, size⟩) :
    a.mark space + (size - 1) < 2 ^ 32 := by
  obtain ⟨hlo, hhi⟩ := hr
  obtain ⟨hmark, hmark'⟩ := ha space
  cases space with
  | mem => simp only [regionStart, regionStop, Range.stop] at *; omega
  | pref => simp only [regionStart, regionStop, Range.stop] at *; omega
  | io => simp only [regionStart, regionStop, Range.stop] at *; omega

/-- The range that a BAR of a power-of-two size gets is in its region just if the BAR fits
behind the mark. -/
theorem allot_one (loc : Loc) (offset : Nat) {a : Alloc} (ha : a.InRegion) (hk : k < 32)
    (hbase : base = alignUp (a.next space) (BitVec.ofNat 32 (2 ^ k))) :
    (Range.InRegion ⟨loc, offset, space, base.toNat, 2 ^ k⟩ ↔
        roundUp (a.mark space) (2 ^ k) + 2 ^ k ≤ regionStop space) ∧
      (Range.InRegion ⟨loc, offset, space, base.toNat, 2 ^ k⟩ →
        base.toNat = roundUp (a.mark space) (2 ^ k)) := by
  have hge := le_roundUp (a.mark space) (Nat.two_pow_pos k)
  have hpos := Nat.two_pow_pos k
  have hstop := regionStop_lt space
  by_cases hlt : a.mark space + (2 ^ k - 1) < 2 ^ 32
  · have hround : base.toNat = roundUp (a.mark space) (2 ^ k) := hbase ▸ alignUp_pow _ hk hlt
    rw [hround]
    exact ⟨⟨fun hr => hr.2, fun h => ⟨(ha space).1.trans hge, h⟩⟩, fun _ => rfl⟩
  · refine ⟨⟨fun hr => absurd (InRegion.no_wrap ha hr) hlt, fun h => ?_⟩,
      fun hr => absurd (InRegion.no_wrap ha hr) hlt⟩
    omega

/-- BARs that the allocators can handle. -/
def Small (bars : List Bar) : Prop := ∀ bar ∈ bars, ∃ k, k < 32 ∧ bar.size = 2 ^ k

theorem Small.pos (h : Small bars) : ∀ bar ∈ bars, 0 < bar.size := by
  intro bar hb
  obtain ⟨k, -, hk⟩ := h bar hb
  exact hk ▸ Nat.two_pow_pos k

/-- Ranges that take the allocators from `a` to `a'` and that, as long as they fit, take the mark
of each space from `x` to `E space x`. -/
structure Fills (E : Space → Nat → Nat) (a : Alloc) (l : List Range) (a' : Alloc) : Prop where
  inRegion_iff : (∀ r ∈ l, r.InRegion) ↔ ∀ space, E space (a.mark space) ≤ regionStop space
  inRegion : (∀ r ∈ l, r.InRegion) → a'.InRegion
  mark_eq : (∀ r ∈ l, r.InRegion) → ∀ space, a'.mark space = E space (a.mark space)
  mark_le : (∀ r ∈ l, r.InRegion) → ∀ space, a.mark space ≤ a'.mark space
  aligned : (∀ r ∈ l, r.InRegion) → ∀ r ∈ l, r.size ∣ r.base
  between : (∀ r ∈ l, r.InRegion) → ∀ r ∈ l, a.mark r.space ≤ r.base ∧ r.stop ≤ a'.mark r.space
  apart : (∀ r ∈ l, r.InRegion) → ∀ space,
    (ofSpace space l).Pairwise fun r r' => r.stop ≤ r'.base

namespace Fills

theorem trans (h : Fills E a l a₁)
    (h' : a₁.InRegion → (∀ space, a₁.mark space = E space (a.mark space)) → Fills E' a₁ l' a₂)
    (hle : ∀ space x, x ≤ E' space x) :
    Fills (fun space x => E' space (E space x)) a (l ++ l') a₂ := by
  have hsplit : (∀ r ∈ l ++ l', r.InRegion) ↔ (∀ r ∈ l, r.InRegion) ∧ ∀ r ∈ l', r.InRegion := by
    simp only [List.mem_append, or_imp, forall_and]
  have hnext (hl : ∀ r ∈ l, r.InRegion) : Fills E' a₁ l' a₂ := h' (h.inRegion hl) (h.mark_eq hl)
  refine ⟨⟨fun hall space => ?_, fun hfit => ?_⟩, fun hall => ?_, fun hall space => ?_,
    fun hall space => ?_, fun hall r hr => ?_, fun hall r hr => ?_, fun hall space => ?_⟩
  · obtain ⟨hl, hl'⟩ := hsplit.1 hall
    have hend := (hnext hl).inRegion_iff.1 hl' space
    rwa [h.mark_eq hl] at hend
  · have hl : ∀ r ∈ l, r.InRegion := h.inRegion_iff.2 fun space => (hle space _).trans (hfit space)
    refine hsplit.2 ⟨hl, (hnext hl).inRegion_iff.2 fun space => ?_⟩
    rw [h.mark_eq hl]
    exact hfit space
  · obtain ⟨hl, hl'⟩ := hsplit.1 hall
    exact (hnext hl).inRegion hl'
  · obtain ⟨hl, hl'⟩ := hsplit.1 hall
    rw [(hnext hl).mark_eq hl', h.mark_eq hl]
  · obtain ⟨hl, hl'⟩ := hsplit.1 hall
    exact (h.mark_le hl space).trans ((hnext hl).mark_le hl' space)
  · obtain ⟨hl, hl'⟩ := hsplit.1 hall
    exact (List.mem_append.1 hr).elim (h.aligned hl r) ((hnext hl).aligned hl' r)
  · obtain ⟨hl, hl'⟩ := hsplit.1 hall
    obtain hr | hr := List.mem_append.1 hr
    · obtain ⟨hbase, hstop⟩ := h.between hl r hr
      exact ⟨hbase, hstop.trans ((hnext hl).mark_le hl' _)⟩
    · obtain ⟨hbase, hstop⟩ := (hnext hl).between hl' r hr
      exact ⟨(h.mark_le hl _).trans hbase, hstop⟩
  · obtain ⟨hl, hl'⟩ := hsplit.1 hall
    rw [ofSpace_append]
    refine List.pairwise_append.2 ⟨h.apart hl space, (hnext hl).apart hl' space,
      fun r hr r' hr' => ?_⟩
    -- the mark between the two lists separates them
    obtain ⟨hr, hspace⟩ := mem_ofSpace.1 hr
    obtain ⟨hr', hspace'⟩ := mem_ofSpace.1 hr'
    have hstop := (h.between hl r hr).2
    have hbase := ((hnext hl).between hl' r' hr').1
    rw [hspace] at hstop
    rw [hspace'] at hbase
    exact hstop.trans hbase

theorem step (ha' : a'.InRegion) (hmark : ∀ space, a'.mark space = E space (a.mark space))
    (hle : ∀ space, a.mark space ≤ a'.mark space) : Fills E a [] a' where
  inRegion_iff := ⟨fun _ space => hmark space ▸ (ha' space).2,
    fun _ _ hr => absurd hr List.not_mem_nil⟩
  inRegion _ := ha'
  mark_eq _ := hmark
  mark_le _ := hle
  aligned _ _ hr := absurd hr List.not_mem_nil
  between _ _ hr := absurd hr List.not_mem_nil
  apart _ _ := List.Pairwise.nil

theorem bar {a : Alloc} (ha : a.InRegion) (loc : Loc) (bar : Bar) (hk : k < 32)
    (hsize : bar.size = 2 ^ k) :
    Fills (fun space x => if bar.space = space then roundUp x bar.size + bar.size else x) a
      [⟨loc, bar.offset, bar.space,
        (alignUp (a.next bar.space) (BitVec.ofNat 32 bar.size)).toNat, bar.size⟩]
      (a.set (alignUp (a.next bar.space) (BitVec.ofNat 32 bar.size) +
        BitVec.ofNat 32 bar.size) bar.space) := by
  rw [hsize]
  generalize hbase : alignUp (a.next bar.space) (BitVec.ofNat 32 (2 ^ k)) = base
  obtain ⟨hiff, hround⟩ := allot_one loc bar.offset ha hk hbase.symm
  generalize hr : Range.mk loc bar.offset bar.space base.toNat (2 ^ k) = r at hiff hround
  have hall : (∀ r' ∈ [r], r'.InRegion) ↔ r.InRegion := by
    simp only [List.mem_singleton, forall_eq]
  have hmark (hin : r.InRegion) (space : Space) :
      (a.set (base + BitVec.ofNat 32 (2 ^ k)) bar.space).mark space =
        if bar.space = space then roundUp (a.mark space) (2 ^ k) + 2 ^ k
        else a.mark space := by
    have hpow : 2 ^ k < 2 ^ 32 := Nat.pow_lt_pow_right (by decide) hk
    have hle := hiff.1 hin
    have hstop := regionStop_lt bar.space
    rw [Alloc.set_mark]
    by_cases he : bar.space = space
    · rw [if_pos he.symm, if_pos he, ← he, BitVec.toNat_add, BitVec.toNat_ofNat,
        Nat.mod_eq_of_lt hpow, hround hin, Nat.mod_eq_of_lt (by omega)]
    · rw [if_neg (Ne.symm he), if_neg he]
  have hfit : r.InRegion ↔ ∀ space, (if bar.space = space then
      roundUp (a.mark space) (2 ^ k) + 2 ^ k else a.mark space) ≤ regionStop space := by
    rw [hiff]
    refine ⟨fun h space => ?_, fun h => by simpa only [if_true] using h bar.space⟩
    by_cases he : bar.space = space
    · rw [if_pos he, ← he]
      exact h
    · rw [if_neg he]
      exact (ha space).2
  have hgrow (hin : r.InRegion) (space : Space) : a.mark space ≤
      (a.set (base + BitVec.ofNat 32 (2 ^ k)) bar.space).mark space := by
    rw [hmark hin]
    split
    · have hge := le_roundUp (a.mark space) (Nat.two_pow_pos k)
      omega
    · exact Nat.le_refl _
  refine ⟨hall.trans hfit, fun h space => ?_, fun h => hmark (hall.1 h), fun h => hgrow (hall.1 h),
    fun h r' hr' => ?_, fun h r' hr' => ?_, fun _ _ => ?_⟩
  · have hin := hall.1 h
    exact ⟨(ha space).1.trans (hgrow hin space), (hmark hin space).symm ▸ hfit.1 hin space⟩
  · have hin := hall.1 h
    rw [List.mem_singleton.1 hr', ← hr]
    show 2 ^ k ∣ base.toNat
    rw [hround hin]
    exact dvd_roundUp _ _
  · have hin := hall.1 h
    rw [List.mem_singleton.1 hr', ← hr]
    show a.mark bar.space ≤ base.toNat ∧ base.toNat + 2 ^ k ≤ Alloc.mark _ bar.space
    rw [hmark hin, if_pos rfl, hround hin]
    exact ⟨le_roundUp _ (Nat.two_pow_pos k), Nat.le_refl _⟩
  · exact (List.pairwise_singleton _ r).sublist List.filter_sublist

theorem bars {a : Alloc} (ha : a.InRegion) (loc : Loc) {bars : List Bar} (hsmall : Small bars) :
    Fills (fun space => packBars space bars) a (allot loc bars a).1 (allot loc bars a).2 := by
  induction bars generalizing a with
  | nil => exact step ha (fun _ => rfl) fun _ => Nat.le_refl _
  | cons b l ih =>
    obtain ⟨k, hk, hsize⟩ := hsmall b List.mem_cons_self
    have hsmall' : Small l := fun b' hb => hsmall b' (List.mem_cons_of_mem _ hb)
    exact (Fills.bar ha loc b hk hsize).trans (fun ha' _ => ih ha' hsmall')
      (fun space => le_packBars space l hsmall'.pos)

end Fills

theorem roundUp_of_dvd (h : g ∣ v) (hg : 0 < g) : roundUp v g = v :=
  Nat.le_antisymm (roundUp_le (Nat.le_refl v) h) (le_roundUp v hg)

/-- Above a bridge, the mark is rounded up whether or not its window is in use. -/
theorem Alloc.padFrom_mark_of_le {start stop : Alloc} (hstop : stop.InRegion)
    (hstart : 2 ^ granuleBits space ∣ start.mark space) (hle : start.mark space ≤ stop.mark space) :
    (start.padFrom stop).mark space = roundUp (stop.mark space) (2 ^ granuleBits space) := by
  rw [Alloc.padFrom_mark hstop]
  split
  next _ => rfl
  next h =>
    have heq : stop.mark space = start.mark space := by omega
    rw [heq, roundUp_of_dvd hstart (Nat.two_pow_pos _)]

/-- All functions of the tree have BARs that the allocators can handle. -/
def Bus.AllSmall (b n : Nat) (X : Bus) : Prop := ∀ f ∈ X.functions b n, Small (functionBars f.2)

/-- No BAR is empty. -/
def Bus.AllPos (b n : Nat) (X : Bus) : Prop :=
  ∀ f ∈ X.functions b n, ∀ bar ∈ functionBars f.2, 0 < bar.size

theorem Bus.AllSmall.pos (h : AllSmall b n X) : AllPos b n X := fun f hf => (h f hf).pos

theorem Bus.AllPos.func (h : AllPos b n (.cons dev fn c below rest))
    (hbridge : isBridge c = false) : AllPos b n rest := by
  rw [AllPos, functions_func hbridge] at h
  exact fun f hf => h f (List.mem_cons_of_mem _ hf)

theorem Bus.AllPos.bridge (h : AllPos b n (.cons dev fn c below rest))
    (hbridge : isBridge c = true) :
    AllPos n (n + 1) below ∧ AllPos b (n + 1 + below.bridges) rest := by
  rw [AllPos, functions_bridge hbridge] at h
  exact ⟨fun f hf => h f (List.mem_cons_of_mem _ (List.mem_append_left _ hf)),
    fun f hf => h f (List.mem_cons_of_mem _ (List.mem_append_right _ hf))⟩

theorem Bus.le_extent (space : Space) (X : Bus) (h : X.AllPos b n) (x : Nat) :
    x ≤ X.extent space x := by
  induction X generalizing b n x with
  | nil => exact Nat.le_refl x
  | cons dev fn c below rest ihb ihr =>
    have hown := le_packBars space (functionBars c) (h _ List.mem_cons_self) x
    have hg : 0 < 2 ^ granuleBits space := Nat.two_pow_pos _
    rw [extent]
    cases hbridge : isBridge c with
    | false => exact hown.trans (ihr (h.func hbridge) _)
    | true =>
      obtain ⟨hbelow, hrest⟩ := h.bridge hbridge
      exact (((hown.trans (le_roundUp _ hg)).trans (ihb hbelow _)).trans (le_roundUp _ hg)).trans
        (ihr hrest _)

theorem Bus.size_le_extent (X : Bus) (h : X.AllPos b n) (hf : f ∈ X.functions b n)
    (hb : bar ∈ functionBars f.2) (x : Nat) : bar.size ≤ X.extent bar.space x := by
  induction X generalizing b n x with
  | nil => exact absurd hf List.not_mem_nil
  | cons dev fn c below rest ihb ihr =>
    have hown (hb : bar ∈ functionBars c) := size_le_packBars (h _ List.mem_cons_self) hb x
    have hg : 0 < 2 ^ granuleBits bar.space := Nat.two_pow_pos _
    rw [extent]
    cases hbridge : isBridge c with
    | false =>
      have hrest := h.func hbridge
      rw [functions_func hbridge] at hf
      obtain rfl | hf := List.mem_cons.1 hf
      · exact (hown hb).trans (rest.le_extent _ hrest _)
      · exact ihr hrest hf _
    | true =>
      obtain ⟨hbelow, hrest⟩ := h.bridge hbridge
      rw [functions_bridge hbridge, List.mem_cons, List.mem_append] at hf
      obtain rfl | hf | hf := hf
      · exact ((((hown hb).trans (le_roundUp _ hg)).trans (below.le_extent _ hbelow _)).trans
          (le_roundUp _ hg)).trans (rest.le_extent _ hrest _)
      · exact ((ihb hbelow hf _).trans (le_roundUp _ hg)).trans (rest.le_extent _ hrest _)
      · exact ihr hrest hf _

/-- The ranges of the BARs keep to the regions for just as long as the BARs of the tree fit. -/
theorem Bus.fills (X : Bus) (h : X.AllSmall b n) {a : Alloc} (ha : a.InRegion) :
    Fills (fun space => X.extent space) a (X.allot functionBars b n a).1
      (X.allot functionBars b n a).2 := by
  induction X generalizing b n a with
  | nil => exact .step ha (fun _ => rfl) fun _ => Nat.le_refl _
  | cons dev fn c below rest ihb ihr =>
    have hsmall : Small (functionBars c) := h _ List.mem_cons_self
    have hown := Fills.bars ha ⟨BitVec.ofNat 8 b, dev, fn⟩ hsmall
    rw [allot]
    cases hbridge : isBridge c with
    | false =>
      rw [AllSmall, functions_func hbridge] at h
      have hrest : rest.AllSmall b n := fun f hf => h f (List.mem_cons_of_mem _ hf)
      have hfills := hown.trans (fun ha' _ => ihr hrest ha')
        (fun space => rest.le_extent space hrest.pos)
      simp only [extent, hbridge, Bool.false_eq_true, if_false]
      exact hfills
    | true =>
      rw [AllSmall, functions_bridge hbridge] at h
      have hbelow : below.AllSmall n (n + 1) := fun f hf =>
        h f (List.mem_cons_of_mem _ (List.mem_append_left _ hf))
      have hrest : rest.AllSmall b (n + 1 + below.bridges) := fun f hf =>
        h f (List.mem_cons_of_mem _ (List.mem_append_right _ hf))
      have hg (space : Space) : 0 < 2 ^ granuleBits space := Nat.two_pow_pos _
      have hge (space : Space) (x : Nat) :
          x ≤ rest.extent space (roundUp x (2 ^ granuleBits space)) :=
        (le_roundUp x (hg space)).trans (rest.le_extent space hrest.pos _)
      have hge' (space : Space) (x : Nat) : x ≤ rest.extent space (roundUp
          (below.extent space x) (2 ^ granuleBits space)) :=
        (below.le_extent space hbelow.pos x).trans (hge space _)
      have hfills := hown.trans (fun hmid _ =>
        (Fills.step (Alloc.pad_inRegion hmid) (Alloc.pad_mark hmid) fun space =>
          Alloc.pad_mark hmid space ▸ le_roundUp _ (hg space)).trans (fun hopen hstart =>
          (ihb hbelow hopen).trans (fun hstop hbelow' =>
            have hmark (space : Space) := Alloc.padFrom_mark_of_le hstop
              (hstart space ▸ dvd_roundUp _ _) (hbelow' space ▸ below.le_extent space hbelow.pos _)
            (Fills.step (Alloc.padFrom_inRegion hstop) hmark fun space =>
              hmark space ▸ le_roundUp _ (hg space)).trans
              (fun hclose _ => ihr hrest hclose) (fun space => rest.le_extent space hrest.pos))
            hge)
          hge')
        (fun space x => (le_roundUp x (hg space)).trans (hge' space _))
      simp only [extent, hbridge, if_true]
      exact hfills

/-- What is behind a host bridge, with BARs and ROMs of any sizes that are powers of two. -/
structure SizedTopology extends Topology where
  sized : ∀ f ∈ bus.functions 0 1, Sized f.2

/-- Everything that is behind a host bridge fits into its regions, in the order of the walk. -/
def Fits (t : SizedTopology) : Prop :=
  ∀ space, t.bus.extent space (regionStart space) ≤ regionStop space

/-- The assigned ranges are ranges of the BARs of their functions, disjoint within each space,
naturally aligned, and inside the region of their space. -/
structure Sound (t : SizedTopology) (out : List Line) : Prop where
  ofBar : ∀ r ∈ ranges out, ∃ c, (r.loc, c) ∈ t.bus.functions 0 1 ∧ r.bar ∈ functionBars c
  apart : ∀ space, (ofSpace space (ranges out)).Pairwise
    (fun r r' => r.stop ≤ r'.base ∨ r'.stop ≤ r.base)
  aligned : ∀ r ∈ ranges out, r.size ∣ r.base
  inRegion : ∀ r ∈ ranges out, r.InRegion

theorem map_allot (loc : Loc) (bars : List Bar) (a : Alloc) :
    (allot loc bars a).1.map (fun r => (r.loc, r.bar)) = bars.map (fun bar => (loc, bar)) := by
  induction bars generalizing a with
  | nil => rfl
  | cons bar l ih =>
    rw [allot, List.map_cons, List.map_cons, ih]
    rfl

theorem Bus.map_allot (X : Bus) (bars : Config → List Bar) (b n : Nat) (a : Alloc) :
    (X.allot bars b n a).1.map (fun r => (r.loc, r.bar)) =
      (X.functions b n).flatMap fun f => (bars f.2).map fun bar => (f.1, bar) := by
  induction X generalizing b n a with
  | nil => rfl
  | cons dev fn c below rest ihb ihr =>
    rw [allot]
    cases hbridge : isBridge c with
    | false =>
      rw [functions_func hbridge, List.flatMap_cons, ← ihr, ← Pci.map_allot, ← List.map_append]
      rfl
    | true =>
      rw [functions_bridge hbridge, List.flatMap_cons, List.flatMap_append, ← ihb, ← ihr,
        ← Pci.map_allot, ← List.map_append, ← List.map_append]
      rfl

theorem Bus.allot_congr (X : Bus) (b n : Nat) (a : Alloc)
    (h : ∀ f ∈ X.functions b n, bars f.2 = bars' f.2) :
    X.allot bars b n a = X.allot bars' b n a := by
  induction X generalizing b n a with
  | nil => rfl
  | cons dev fn c below rest ihb ihr =>
    have hown : bars c = bars' c := by
      cases hbridge : isBridge c with
      | false =>
        rw [functions_func hbridge] at h
        exact h _ List.mem_cons_self
      | true =>
        rw [functions_bridge hbridge] at h
        exact h _ List.mem_cons_self
    rw [allot, allot, hown]
    cases hbridge : isBridge c with
    | false =>
      rw [functions_func hbridge] at h
      simp only [Bool.false_eq_true, if_false]
      rw [ihr _ _ _ fun f hf => h f (List.mem_cons_of_mem _ hf)]
    | true =>
      rw [functions_bridge hbridge] at h
      simp only [if_true]
      rw [ihb _ _ _ fun f hf => h f (List.mem_cons_of_mem _ (List.mem_append_left _ hf)),
        ihr _ _ _ fun f hf => h f (List.mem_cons_of_mem _ (List.mem_append_right _ hf))]

/-- No I/O BAR behind the host decodes 16 address bits only. -/
def FullDecode (t : SizedTopology) : Prop :=
  ∀ f ∈ t.bus.functions 0 1, ∀ bar ∈ functionBars f.2, ¬ Decodes16 f.2 bar

namespace SizedTopology

variable (t : SizedTopology)

theorem allPos : t.bus.AllPos 0 1 := by
  intro f hf bar hb
  obtain ⟨k, hk⟩ := (t.sized f hf).size_pow hb
  exact hk ▸ Nat.two_pow_pos k

section

variable (h : ∀ f ∈ t.bus.functions 0 1, ∀ bar ∈ functionBars f.2, bar.size < 2 ^ 32)

include h

theorem allSmall : t.bus.AllSmall 0 1 := by
  intro f hf bar hb
  obtain ⟨k, hk⟩ := (t.sized f hf).size_pow hb
  have hlt := h f hf bar hb
  rw [hk] at hlt
  exact ⟨k, (Nat.pow_lt_pow_iff_right (by decide)).1 hlt, hk⟩

theorem seenBars_eq : ∀ f ∈ t.bus.functions 0 1,
    seenBars f.2 = (functionBars f.2).map (sizedAs f.2) := by
  intro f hf
  obtain ⟨heq, -⟩ | ⟨⟨bar, hb, hge⟩, -⟩ := (t.sized f hf).seen_eq_or
  · exact heq
  · exact absurd (h f hf bar hb) (Nat.not_lt.2 hge)

/-- The walker allots what it should where no BAR is taken for a larger one. -/
theorem allot_eq (hdecode : FullDecode t) (a : Alloc) :
    t.bus.allot seenBars 0 1 a = t.bus.allot functionBars 0 1 a := by
  apply Bus.allot_congr
  intro f hf
  have hsame : (functionBars f.2).map (sizedAs f.2) = (functionBars f.2).map id :=
    List.map_congr_left fun bar hb => sizedAs_of_not (hdecode f hf bar hb)
  rw [t.seenBars_eq h f hf, hsame, List.map_id]

end

end SizedTopology

theorem Fits.small (h : Fits t) :
    ∀ f ∈ t.bus.functions 0 1, ∀ bar ∈ functionBars f.2, bar.size < 2 ^ 32 := by
  intro f hf bar hb
  have hle := t.bus.size_le_extent t.allPos hf hb (regionStart bar.space)
  exact (hle.trans (h bar.space)).trans_lt (regionStop_lt bar.space)

theorem Fits.allSmall (h : Fits t) : t.bus.AllSmall 0 1 := t.allSmall h.small

theorem Scans.functions_nodup (t : Topology) (h : Scans 0 none 0 Scan.reset t.bus X s) :
    ((t.bus.functions 0 1).map Prod.fst).Nodup := by
  have hnext := h.next_eq
  have hle := t.bridges_le
  have hfew : s.next ≤ 256 := by
    rw [hnext, Scan.reset]
    dsimp only
    omega
  exact h.locs_eq (by decide) ▸ h.locs_nodup (by decide) hfew

theorem Scans.ranges_eq (t : SizedTopology) (h : Scans 0 none 0 Scan.reset t.bus X s) :
    ranges s.out = (t.bus.allot seenBars 0 1 Alloc.reset).1 :=
  (h.allot_eq fun f hf => (t.sized f hf).toPlainRegs).1

/-- What the walker takes an I/O BAR with 16 address bits for has no size that a BAR can have. -/
theorem Decodes16.size_ne_pow (h : Decodes16 c bar) (hpos : 0 < bar.size)
    (hlt : (sizedAs c bar).size < 2 ^ 32) (j : Nat) : (sizedAs c bar).size ≠ 2 ^ j := by
  intro hj
  have hadd : (sizedAs c bar).size = bar.size + 0xFFFF0000 := by rw [sizedAs, if_pos h]
  have hlow : 2 ^ 31 < 2 ^ j := by omega
  have hhigh : 2 ^ j < 2 ^ 32 := by omega
  have hj := (Nat.pow_lt_pow_iff_right (by decide)).1 hlow
  have hj' := (Nat.pow_lt_pow_iff_right (by decide)).1 hhigh
  omega

/-- A BAR of 4 GiB or more, or an I/O BAR that decodes 16 address bits, would show up as a range
that belongs to no BAR. -/
theorem Scans.small (t : SizedTopology) (h : Scans 0 none 0 Scan.reset t.bus X s)
    (hbar : ∀ r ∈ ranges s.out, ∃ c, (r.loc, c) ∈ t.bus.functions 0 1 ∧ r.bar ∈ functionBars c) :
    (∀ f ∈ t.bus.functions 0 1, ∀ bar ∈ functionBars f.2, bar.size < 2 ^ 32) ∧ FullDecode t := by
  have hnd := h.functions_nodup t.toTopology
  have hseen (f : Loc × Config) (hf : f ∈ t.bus.functions 0 1) :
      ∀ bar ∈ seenBars f.2, bar ∈ functionBars f.2 := by
    intro bar hb
    have hmem : (f.1, bar) ∈ (t.bus.allot seenBars 0 1 Alloc.reset).1.map
        (fun r => (r.loc, r.bar)) := by
      rw [Bus.map_allot]
      exact List.mem_flatMap.2 ⟨f, hf, List.mem_map.2 ⟨bar, hb, rfl⟩⟩
    obtain ⟨r, hr, heq⟩ := List.mem_map.1 hmem
    obtain ⟨hloc, hrbar⟩ := Prod.mk.injEq _ _ _ _ ▸ heq
    obtain ⟨c, hc, hin⟩ := hbar r (h.ranges_eq t ▸ hr)
    rw [hloc] at hc
    have hfc : f = (f.1, c) := List.inj_on_of_nodup_map hnd hf hc rfl
    rw [hrbar] at hin
    rw [hfc]
    exact hin
  have hsmall : ∀ f ∈ t.bus.functions 0 1, ∀ bar ∈ functionBars f.2, bar.size < 2 ^ 32 := by
    intro f hf bar hb
    obtain ⟨-, hsmall⟩ | ⟨-, wrong, hwrong, hno⟩ := (t.sized f hf).seen_eq_or
    · exact hsmall bar hb
    · exact absurd (hseen f hf wrong hwrong) hno
  refine ⟨hsmall, fun f hf bar hb hshort => ?_⟩
  have hmem : sizedAs f.2 bar ∈ functionBars f.2 := by
    apply hseen f hf
    rw [t.seenBars_eq hsmall f hf]
    exact List.mem_map_of_mem hb
  obtain ⟨j, hj⟩ := (t.sized f hf).size_pow hmem
  exact hshort.size_ne_pow (t.allPos f hf bar hb) (hsmall f hf _ hmem) j hj

theorem Alloc.reset_mark (space : Space) : Alloc.reset.mark space = regionStart space := by
  cases space <;> rfl

theorem Bus.inRegion_iff (X : Bus) (hsmall : X.AllSmall 0 1) :
    (∀ r ∈ (X.allot functionBars 0 1 Alloc.reset).1, r.InRegion) ↔
      ∀ space, X.extent space (regionStart space) ≤ regionStop space := by
  rw [(X.fills hsmall Alloc.reset_inRegion).inRegion_iff]
  simp only [Alloc.reset_mark]

theorem Scans.inRegion_iff (t : SizedTopology) (h : Scans 0 none 0 Scan.reset t.bus X s)
    (hsmall : ∀ f ∈ t.bus.functions 0 1, ∀ bar ∈ functionBars f.2, bar.size < 2 ^ 32)
    (hdecode : FullDecode t) : (∀ r ∈ ranges s.out, r.InRegion) ↔ Fits t := by
  rw [h.ranges_eq t, t.allot_eq hsmall hdecode]
  exact t.bus.inRegion_iff (t.allSmall hsmall)

theorem Scans.sound_iff (t : SizedTopology) (h : Scans 0 none 0 Scan.reset t.bus X s) :
    Sound t s.out ↔ Fits t ∧ FullDecode t := by
  constructor
  · intro hsound
    obtain ⟨hsmall, hdecode⟩ := h.small t hsound.ofBar
    exact ⟨(h.inRegion_iff t hsmall hdecode).1 hsound.inRegion, hdecode⟩
  · rintro ⟨hfits, hdecode⟩
    have hin := (h.inRegion_iff t hfits.small hdecode).2 hfits
    have hfills := t.bus.fills hfits.allSmall Alloc.reset_inRegion
    have hout := h.ranges_eq t
    rw [t.allot_eq hfits.small hdecode] at hout
    refine ⟨fun r hr => ?_, fun space => ?_, ?_, hin⟩
    · have hmem : (r.loc, r.bar) ∈ (t.bus.functions 0 1).flatMap
          fun f => (functionBars f.2).map fun bar => (f.1, bar) := by
        rw [← Bus.map_allot t.bus functionBars 0 1 Alloc.reset, ← hout]
        exact List.mem_map_of_mem hr
      obtain ⟨f, hf, hbar⟩ := List.mem_flatMap.1 hmem
      obtain ⟨bar, hb, heq⟩ := List.mem_map.1 hbar
      obtain ⟨hloc, hbar⟩ := Prod.mk.injEq _ _ _ _ ▸ heq
      exact ⟨f.2, hloc ▸ hf, hbar ▸ hb⟩
    · rw [hout] at hin ⊢
      exact (hfills.apart hin space).imp Or.inl
    · rw [hout] at hin ⊢
      exact hfills.aligned hin

/-- After `pci_walk` the ranges of a host are as they should be just if everything behind it
fits and no I/O BAR decodes 16 address bits only. -/
theorem pciWalk_sound_iff (t₀ t₁ : SizedTopology) :
    ∃ depth, ∀ k, ∃ ctx₀ ctx₁, pciWalk (depth + k) t₀.bus t₁.bus = some (ctx₀, ctx₁) ∧
      (Sound t₀ ctx₀.walk.out ↔ Fits t₀ ∧ FullDecode t₀) ∧
        (Sound t₁ ctx₁.walk.out ↔ Fits t₁ ∧ FullDecode t₁) :=
  pciWalk_satisfies t₀.toTopology t₁.toTopology (fun _ _ h => h.sound_iff t₀)
    (fun _ _ h => h.sound_iff t₁)

/-- A card with one memory BAR of 1 GiB. -/
def largeCard : Config
  | 0 => ⟨0x10501AF4#32, 0#32, 0#32⟩
  | 4 => ⟨0#32, 0xC0000000#32, 0#32⟩
  | _ => ⟨0#32, 0#32, 0#32⟩

theorem largeCard_sized : Sized largeCard where
  bars i hi := by
    have hi' : i < 6 := hi
    interval_cases i <;> exact ⟨by decide, by decide⟩
  rom := ⟨by decide, by decide⟩
  barSizes :=
    .narrow (by decide) (by decide) (.inr ⟨30, by decide, by decide⟩) <|
    .narrow (by decide) (by decide) (.inl (by decide)) <|
    .narrow (by decide) (by decide) (.inl (by decide)) <|
    .narrow (by decide) (by decide) (.inl (by decide)) <|
    .narrow (by decide) (by decide) (.inl (by decide)) <|
    .narrow (by decide) (by decide) (.inl (by decide)) <| .done (by decide)
  romSize := .inl (by decide)

def largeCardHost : SizedTopology where
  bus := .cons 0 0 largeCard .nil .nil
  formed := .func ⟨by decide, by decide, by decide, by decide, .inl rfl⟩ (by decide) .nil
  bridges_le := by decide
  sized f hf := List.mem_singleton.1 hf ▸ largeCard_sized

def emptyHost : SizedTopology :=
  { Topology.vacant with sized := fun _ hf => absurd hf List.not_mem_nil }

/-- The card gets 0x80000000..0xBFFFFFFF, which reaches into the prefetchable region. -/
theorem largeCard_leaves_region :
    ∃ depth, ∀ k, ∃ ctx₀ ctx₁,
      pciWalk (depth + k) largeCardHost.bus emptyHost.bus = some (ctx₀, ctx₁) ∧
        (¬ ∀ r ∈ ranges ctx₀.walk.out, r.InRegion) ∧ ∀ r ∈ ranges ctx₁.walk.out, r.InRegion := by
  refine pciWalk_satisfies largeCardHost.toTopology emptyHost.toTopology (fun X s h hin => ?_)
    (fun X s h => ?_)
  · have hsmall : ∀ f ∈ largeCardHost.bus.functions 0 1,
        ∀ bar ∈ functionBars f.2, bar.size < 2 ^ 32 := by decide
    have hdecode : FullDecode largeCardHost := by
      rw [FullDecode]
      decide
    exact absurd ((h.inRegion_iff largeCardHost hsmall hdecode).1 hin .mem) (by decide)
  · refine (h.inRegion_iff emptyHost (fun f hf => absurd hf List.not_mem_nil)
      fun f hf => absurd hf List.not_mem_nil).2 fun space => ?_
    cases space <;> decide

end Pegasos2.Pci
