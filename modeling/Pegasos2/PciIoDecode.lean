import Pegasos2.PciResources

namespace Pegasos2.Pci
open Packing
set_option autoImplicit true

/-- How far the I/O mark is off after an I/O BAR that decodes 16 address bits only. -/
def ioShift : Word := 0xFFFF0000#32

theorem toNat_low (hk : k ≤ 16) : (BitVec.ofNat 32 (2 ^ k) - 1#32).toNat = 2 ^ k - 1 := by
  have hpow : 2 ^ k ≤ 2 ^ 16 := Nat.pow_le_pow_right (by decide) hk
  have hpos := Nat.two_pow_pos k
  have hnat : (BitVec.ofNat 32 (2 ^ k)).toNat = 2 ^ k := by
    rw [BitVec.toNat_ofNat, Nat.mod_eq_of_lt (by omega)]
  rw [BitVec.toNat_sub_of_le, hnat]
  · rfl
  · rw [BitVec.le_def, hnat]
    exact hpos

theorem add_ioShift_and (hk : k ≤ 16) (v : Word) :
    (v + ioShift) &&& (BitVec.ofNat 32 (2 ^ k) - 1#32) =
      v &&& (BitVec.ofNat 32 (2 ^ k) - 1#32) := by
  have hdvd : 2 ^ k ∣ 2 ^ 16 := Nat.pow_dvd_pow 2 hk
  have hdvd32 : 2 ^ k ∣ 2 ^ 32 := hdvd.trans (by decide)
  have hshift : 2 ^ k ∣ ioShift.toNat := hdvd.trans (by decide)
  apply BitVec.eq_of_toNat_eq
  rw [BitVec.toNat_and, BitVec.toNat_and, toNat_low hk, Nat.and_two_pow_sub_one_eq_mod,
    Nat.and_two_pow_sub_one_eq_mod, BitVec.toNat_add, Nat.mod_mod_of_dvd _ hdvd32, Nat.add_mod,
    Nat.mod_eq_zero_of_dvd hshift, Nat.add_zero, Nat.mod_mod]

theorem alignUp_add_ioShift (hk : k ≤ 16) (v : Word) :
    alignUp (v + ioShift) (BitVec.ofNat 32 (2 ^ k)) =
      alignUp v (BitVec.ofNat 32 (2 ^ k)) + ioShift := by
  have hcomm : v + ioShift + (BitVec.ofNat 32 (2 ^ k) - 1#32) =
      v + (BitVec.ofNat 32 (2 ^ k) - 1#32) + ioShift := by
    rw [BitVec.add_assoc, BitVec.add_comm ioShift, BitVec.add_assoc]
  rw [alignUp, alignUp, hcomm]
  generalize v + (BitVec.ofNat 32 (2 ^ k) - 1#32) = x
  have h := and_not_add_and (x + ioShift) (BitVec.ofNat 32 (2 ^ k) - 1#32)
  rw [add_ioShift_and hk] at h
  have h' := and_not_add_and x (BitVec.ofNat 32 (2 ^ k) - 1#32)
  generalize x &&& ~~~(BitVec.ofNat 32 (2 ^ k) - 1#32) = y at h' ⊢
  generalize (x + ioShift) &&& ~~~(BitVec.ofNat 32 (2 ^ k) - 1#32) = z at h ⊢
  generalize x &&& (BitVec.ofNat 32 (2 ^ k) - 1#32) = m at h h'
  subst h'
  have hz : z + m = y + ioShift + m := by
    rw [h, BitVec.add_assoc, BitVec.add_comm m, BitVec.add_assoc]
  exact (BitVec.add_left_inj m).1 hz

/-- An I/O BAR that decodes 16 address bits is placed where it should be, shifted or not. -/
theorem alignUp_short (hk : k ≤ 16) (late : Bool) (hlow : v.toNat + (2 ^ k - 1) < 2 ^ 16) :
    alignUp (if late then v + ioShift else v) (BitVec.ofNat 32 (2 ^ k + 0xFFFF0000)) =
      alignUp v (BitVec.ofNat 32 (2 ^ k)) := by
  generalize hm : BitVec.ofNat 32 (2 ^ k) - 1#32 = m
  have hmnat : m.toNat = 2 ^ k - 1 := hm ▸ toNat_low hk
  have hsize : BitVec.ofNat 32 (2 ^ k + 0xFFFF0000) - 1#32 = m + ioShift := by
    rw [← hm, BitVec.ofNat_add, ioShift]
    bv_omega
  have hfull : (0xFFFF#32 : Word) = BitVec.ofNat 32 (2 ^ 16) - 1#32 := by decide
  have hor : m + ioShift = m ||| ioShift := by
    apply BitVec.add_eq_or_of_and_eq_zero
    apply BitVec.eq_of_getLsbD_eq
    intro i hi
    rw [BitVec.getLsbD_and, BitVec.getLsbD_zero]
    by_cases hi' : i < 16
    · have hzero : ioShift.getLsbD i = false := by interval_cases i <;> rfl
      rw [hzero, Bool.and_false]
    · have hzero : m.getLsbD i = false := by
        rw [← BitVec.testBit_toNat]
        refine Nat.testBit_lt_two_pow (Nat.lt_of_lt_of_le ?_ (Nat.pow_le_pow_right (by decide)
          (Nat.not_lt.1 hi')))
        omega
      rw [hzero, Bool.false_and]
  have hnot : ~~~(m + ioShift) = 0xFFFF#32 &&& ~~~m := by
    rw [hor, BitVec.not_or, BitVec.and_comm]
    rfl
  have hsum (w : Word) (hw : w &&& 0xFFFF#32 = (v + m) &&& 0xFFFF#32) :
      w &&& ~~~(m + ioShift) = (v + m) &&& ~~~m := by
    have hsmall : (v + m) &&& 0xFFFF#32 = v + m := by
      apply BitVec.eq_of_toNat_eq
      have hadd : (v + m).toNat = v.toNat + (2 ^ k - 1) := by
        rw [BitVec.toNat_add, hmnat, Nat.mod_eq_of_lt (by omega)]
      rw [BitVec.toNat_and, hadd]
      exact (Nat.and_two_pow_sub_one_eq_mod _ 16).trans (Nat.mod_eq_of_lt hlow)
    rw [hnot, ← BitVec.and_assoc, hw, hsmall]
  rw [alignUp, alignUp, hsize, hm]
  apply hsum
  cases late with
  | false =>
    rw [if_neg Bool.false_ne_true, ← BitVec.add_assoc, hfull]
    exact add_ioShift_and (Nat.le_refl 16) _
  | true =>
    have hcomm : v + ioShift + (m + ioShift) = v + m + ioShift + ioShift := by
      rw [BitVec.add_assoc, ← BitVec.add_assoc ioShift, BitVec.add_comm ioShift m,
        ← BitVec.add_assoc, ← BitVec.add_assoc]
    rw [if_pos rfl, hcomm, hfull, add_ioShift_and (Nat.le_refl 16),
      add_ioShift_and (Nat.le_refl 16)]

/-- A BAR of a function. -/
structure OwnedBar where
  loc : Loc
  cfg : Config
  bar : Bar

namespace OwnedBar

/-- It is an I/O BAR that decodes 16 address bits only. -/
def short (q : OwnedBar) : Bool := Decodes16 q.cfg q.bar

/-- What the walker makes of the range `r` that is due to the BAR: one with 16 address bits is
taken for a larger one, and full I/O ranges that come `late`, after such a BAR, are shifted. -/
def drifted (q : OwnedBar) (late : Bool) (r : Range) : Range :=
  if q.short then { r with size := r.size + 0xFFFF0000 }
  else if late ∧ q.bar.space = .io then { r with base := r.base + 0xFFFF0000 }
  else r

theorem drifted_loc (q : OwnedBar) (late : Bool) (r : Range) : (q.drifted late r).loc = r.loc := by
  rw [drifted]
  split_ifs <;> rfl

theorem drifted_space (q : OwnedBar) (late : Bool) (r : Range) :
    (q.drifted late r).space = r.space := by
  rw [drifted]
  split_ifs <;> rfl

theorem not_short (q : OwnedBar) (h : q.bar.space ≠ .io) : ¬ q.short = true :=
  fun hs => h (of_decide_eq_true hs).1

theorem drifted_of_ne (q : OwnedBar) (late : Bool) (r : Range) (h : q.bar.space ≠ .io) :
    q.drifted late r = r := by
  rw [drifted, if_neg (q.not_short h), if_neg fun hl => h hl.2]

end OwnedBar

/-- The BARs of a bus and behind it in the order of the walk. -/
def Bus.ownedBars (b n : Nat) (X : Bus) : List OwnedBar :=
  (X.functions b n).flatMap fun f => (functionBars f.2).map fun bar => ⟨f.1, f.2, bar⟩

/-- The ranges `rs'` are what the walker makes of the ranges `rs` that are due to some BARs. -/
inductive Drifts : Bool → List OwnedBar → List Range → List Range → Prop
  | nil : Drifts late [] [] []
  | cons {late : Bool} {r : Range} {q : OwnedBar} (hloc : r.loc = q.loc)
      (hspace : r.space = q.bar.space)
      (h : Drifts (late || q.short) l rs rs') :
      Drifts late (q :: l) (r :: rs) (q.drifted late r :: rs')

theorem Drifts.append (h : Drifts late l rs rs')
    (h' : Drifts (late || l.any OwnedBar.short) l' rs₁ rs₁') :
    Drifts late (l ++ l') (rs ++ rs₁) (rs' ++ rs₁') := by
  induction h with
  | nil =>
    rw [List.any_nil, Bool.or_false] at h'
    exact h'
  | cons hloc hspace _ ih =>
    rw [List.any_cons, ← Bool.or_assoc] at h'
    exact .cons hloc hspace (ih h')

/-- The allocators of the walker lag behind those that place every BAR with its size: their I/O
mark is shifted once a BAR with 16 address bits has been passed. -/
structure Lags (late : Bool) (a b : Alloc) : Prop where
  mem : a.mem = b.mem
  pref : a.pref = b.pref
  io : a.io = if late then b.io + ioShift else b.io

theorem Lags.refl (a : Alloc) : Lags false a a := ⟨rfl, rfl, rfl⟩

theorem Lags.next_eq (h : Lags late a b) (hspace : space ≠ .io) : a.next space = b.next space := by
  cases space with
  | mem => exact h.mem
  | pref => exact h.pref
  | io => exact absurd rfl hspace

theorem Lags.set (h : Lags late a b) (hspace : space ≠ .io) (v : Word) :
    Lags late (a.set v space) (b.set v space) := by
  cases space with
  | mem => exact ⟨rfl, h.pref, h.io⟩
  | pref => exact ⟨h.mem, rfl, h.io⟩
  | io => exact absurd rfl hspace

theorem Lags.set_io (h : Lags late a b) (hv : v = if late' then w + ioShift else w) :
    Lags late' (a.set v .io) (b.set w .io) := ⟨h.mem, h.pref, hv⟩

theorem Lags.pad (h : Lags late a b) : Lags late a.pad b.pad := by
  have hgranule : granule .io = BitVec.ofNat 32 (2 ^ 12) := rfl
  refine ⟨congrArg (alignUp · _) h.mem, congrArg (alignUp · _) h.pref, ?_⟩
  show alignUp a.io (granule .io) = if late then alignUp b.io (granule .io) + ioShift
    else alignUp b.io (granule .io)
  rw [h.io]
  cases late with
  | false => rfl
  | true => exact hgranule ▸ alignUp_add_ioShift (by decide) b.io

theorem alignUp_granule_of_dvd {v : Word} (hle : v.toNat ≤ regionStop space)
    (hdvd : 2 ^ granuleBits space ∣ v.toNat) : alignUp v (granule space) = v := by
  apply BitVec.eq_of_toNat_eq
  rw [alignUp_granule v space hle, roundUp_of_dvd hdvd (Nat.two_pow_pos _)]

/-- An I/O mark at the end of the region wraps to 0 when it is shifted; any other stays below. -/
theorem toNat_add_ioShift {v : Word} (h : v.toNat < 2 ^ 16) :
    (v + ioShift).toNat = v.toNat + 0xFFFF0000 := by
  have hshift : ioShift.toNat = 0xFFFF0000 := rfl
  rw [BitVec.toNat_add, hshift, Nat.mod_eq_of_lt (by omega)]

theorem Lags.padFrom (hstart : Lags late₀ start start') (hstop : Lags late stop stop')
    (hlate : late₀ = true → late = true) (hin : stop'.InRegion)
    (hdvd : 2 ^ granuleBits .io ∣ start'.mark .io) (hle : start'.mark .io ≤ stop'.mark .io) :
    Lags late (start.padFrom stop) (start'.padFrom stop') := by
  have hend : stop'.io.toNat ≤ regionStop .io := (hin .io).2
  have hmark : start'.io.toNat ≤ stop'.io.toNat := hle
  refine ⟨?_, ?_, ?_⟩
  · show (if stop.mem > start.mem then _ else _) = if stop'.mem > start'.mem then _ else _
    rw [hstop.mem, hstart.mem]
  · show (if stop.pref > start.pref then _ else _) = if stop'.pref > start'.pref then _ else _
    rw [hstop.pref, hstart.pref]
  · show (if stop.io > start.io then alignUp stop.io (granule .io) else stop.io) = if late then
      (if stop'.io > start'.io then alignUp stop'.io (granule .io) else stop'.io) + ioShift
      else if stop'.io > start'.io then alignUp stop'.io (granule .io) else stop'.io
    cases late with
    | false =>
      obtain rfl : late₀ = false := Bool.eq_false_iff.2 fun h => Bool.false_ne_true (hlate h)
      rw [hstop.io, hstart.io, if_neg Bool.false_ne_true, if_neg Bool.false_ne_true,
        if_neg Bool.false_ne_true]
    | true =>
      have hgranule : granule .io = BitVec.ofNat 32 (2 ^ 12) := rfl
      have hpad : alignUp (stop'.io + ioShift) (granule .io) =
          alignUp stop'.io (granule .io) + ioShift :=
        hgranule ▸ alignUp_add_ioShift (by decide) stop'.io
      -- where no padding is due, the mark is aligned already
      have hsame (h : stop'.io.toNat ≤ start'.io.toNat ∨ stop'.io.toNat = 2 ^ 16) :
          alignUp stop'.io (granule .io) = stop'.io := by
        apply alignUp_granule_of_dvd hend
        obtain h | h := h
        · exact Nat.le_antisymm h hmark ▸ hdvd
        · rw [h]
          decide
      have htrue : (if stop'.io > start'.io then alignUp stop'.io (granule .io) else stop'.io) =
          alignUp stop'.io (granule .io) := by
        split_ifs with h
        · rfl
        · exact (hsame (.inl (Nat.not_lt.1 h))).symm
      rw [if_pos rfl, htrue, hstop.io, if_pos rfl]
      split_ifs with h
      · exact hpad
      · rw [hsame]
        by_contra hno
        obtain ⟨hlt, hne⟩ := not_or.1 hno
        have hend' : stop'.io.toNat ≤ 2 ^ 16 := hend
        have hshift := toNat_add_ioShift (v := stop'.io) (by omega)
        apply h
        show start.io < stop'.io + ioShift
        rw [BitVec.lt_def, hshift, hstart.io]
        cases late₀ with
        | false =>
          rw [if_neg Bool.false_ne_true]
          omega
        | true =>
          rw [if_pos rfl, toNat_add_ioShift (by omega)]
          omega

theorem Lags.bar (h : Lags late a b) (hb : b.InRegion) (q : OwnedBar) (hk : k < 32)
    (hsize : q.bar.size = 2 ^ k) (hr : Range.InRegion ⟨q.loc, q.bar.offset, q.bar.space,
      (alignUp (b.next q.bar.space) (BitVec.ofNat 32 q.bar.size)).toNat, q.bar.size⟩)
    (hseen : seen = sizedAs q.cfg q.bar) :
    (⟨q.loc, seen.offset, seen.space,
        (alignUp (a.next seen.space) (BitVec.ofNat 32 seen.size)).toNat, seen.size⟩ : Range) =
      q.drifted late ⟨q.loc, q.bar.offset, q.bar.space,
        (alignUp (b.next q.bar.space) (BitVec.ofNat 32 q.bar.size)).toNat, q.bar.size⟩ ∧
    Lags (late || q.short)
      (a.set (alignUp (a.next seen.space) (BitVec.ofNat 32 seen.size) +
        BitVec.ofNat 32 seen.size) seen.space)
      (b.set (alignUp (b.next q.bar.space) (BitVec.ofNat 32 q.bar.size) +
        BitVec.ofNat 32 q.bar.size) q.bar.space) := by
  obtain ⟨loc, c, offset, space, size⟩ := q
  dsimp only at hsize hr hseen ⊢
  subst hsize
  obtain ⟨hiff, hround⟩ := allot_one loc offset hb hk rfl
  have hfit := hiff.1 hr
  have hbase := hround hr
  have hpos := Nat.two_pow_pos k
  have hge := le_roundUp (b.mark space) hpos
  by_cases hshort : Decodes16 c ⟨offset, space, 2 ^ k⟩
  · have hs : OwnedBar.short ⟨loc, c, offset, space, 2 ^ k⟩ = true := decide_eq_true hshort
    obtain rfl : space = .io := hshort.1
    have hstop : regionStop .io = 2 ^ 16 := rfl
    have hk16 : k ≤ 16 := (Nat.pow_le_pow_iff_right (a := 2) (by decide)).1 (by omega)
    have hplace : alignUp (a.next .io) (BitVec.ofNat 32 (2 ^ k + 0xFFFF0000)) =
        alignUp (b.next .io) (BitVec.ofNat 32 (2 ^ k)) := by
      show alignUp a.io _ = alignUp b.io _
      rw [h.io]
      exact alignUp_short hk16 late (by
        have hmark : b.mark .io = b.io.toNat := rfl
        omega)
    rw [hseen, sizedAs, if_pos hshort, OwnedBar.drifted, if_pos hs, hs, Bool.or_true]
    dsimp only
    rw [hplace]
    refine ⟨rfl, h.set_io ?_⟩
    rw [if_pos rfl, BitVec.ofNat_add, ← BitVec.add_assoc]
    rfl
  · have hs : OwnedBar.short ⟨loc, c, offset, space, 2 ^ k⟩ = false := decide_eq_false hshort
    rw [hseen, sizedAs_of_not hshort, OwnedBar.drifted, hs, if_neg Bool.false_ne_true,
      Bool.or_false]
    dsimp only
    by_cases hio : space = .io
    · subst hio
      have hstop : regionStop .io = 2 ^ 16 := rfl
      cases late with
      | false =>
        have hnext : a.next .io = b.next .io := h.io
        rw [hnext, if_neg fun hl => Bool.false_ne_true hl.1]
        exact ⟨rfl, h.set_io rfl⟩
      | true =>
        have hk16 : k ≤ 16 := (Nat.pow_le_pow_iff_right (a := 2) (by decide)).1 (by omega)
        have hnext : a.next .io = b.next .io + ioShift := h.io
        rw [hnext, alignUp_add_ioShift hk16, if_pos ⟨rfl, rfl⟩, toNat_add_ioShift (by omega)]
        refine ⟨rfl, h.set_io ?_⟩
        rw [if_pos rfl, BitVec.add_assoc, BitVec.add_comm ioShift, BitVec.add_assoc]
    · rw [h.next_eq hio, if_neg fun hl => hio hl.2]
      exact ⟨rfl, h.set hio _⟩

theorem Lags.allot (h : Lags late a b) (hb : b.InRegion) (loc : Loc) (c : Config)
    (hsmall : Small bars) (hin : ∀ r ∈ (Pci.allot loc bars b).1, r.InRegion) :
    Drifts late (bars.map fun bar => ⟨loc, c, bar⟩) (Pci.allot loc bars b).1
        (Pci.allot loc (bars.map (sizedAs c)) a).1 ∧
      Lags (late || (bars.map fun bar => (⟨loc, c, bar⟩ : OwnedBar)).any OwnedBar.short)
        (Pci.allot loc (bars.map (sizedAs c)) a).2 (Pci.allot loc bars b).2 := by
  induction bars generalizing late a b with
  | nil =>
    rw [List.map_nil, List.any_nil, Bool.or_false]
    exact ⟨.nil, h⟩
  | cons bar l ih =>
    obtain ⟨k, hk, hsize⟩ := hsmall bar List.mem_cons_self
    have hsmall' : Small l := fun bar' hb => hsmall bar' (List.mem_cons_of_mem _ hb)
    rw [Pci.allot] at hin
    have hfirst := hin _ List.mem_cons_self
    obtain ⟨hrange, hlags⟩ := h.bar hb ⟨loc, c, bar⟩ hk hsize hfirst rfl
    have hb' := (Fills.bar hb loc bar hk hsize).inRegion fun r hr =>
      List.mem_singleton.1 hr ▸ hfirst
    obtain ⟨hdrifts, hlags'⟩ :=
      ih hlags hb' hsmall' fun r hr => hin r (List.mem_cons_of_mem _ hr)
    rw [List.map_cons, List.map_cons, Pci.allot, Pci.allot, List.any_cons, ← Bool.or_assoc]
    dsimp only at hrange hdrifts hlags' ⊢
    rw [hrange]
    exact ⟨.cons rfl rfl hdrifts, hlags'⟩

namespace Bus

theorem ownedBars_func (h : isBridge c = false) :
    (cons dev fn c below rest).ownedBars b n =
      (functionBars c).map (fun bar => ⟨⟨BitVec.ofNat 8 b, dev, fn⟩, c, bar⟩) ++
        rest.ownedBars b n := by
  rw [ownedBars, functions_func h, List.flatMap_cons]
  rfl

theorem ownedBars_bridge (h : isBridge c = true) :
    (cons dev fn c below rest).ownedBars b n =
      (functionBars c).map (fun bar => ⟨⟨BitVec.ofNat 8 b, dev, fn⟩, c, bar⟩) ++
        (below.ownedBars n (n + 1) ++ rest.ownedBars b (n + 1 + below.bridges)) := by
  rw [ownedBars, functions_bridge h, List.flatMap_cons, List.flatMap_append]
  rfl

theorem drifts (X : Bus) (hsmall : X.AllSmall b n)
    (hseen : ∀ f ∈ X.functions b n, seenBars f.2 = (functionBars f.2).map (sizedAs f.2))
    {a a' : Alloc} (h : Lags late a a') (ha : a'.InRegion)
    (hin : ∀ r ∈ (X.allot functionBars b n a').1, r.InRegion) :
    Drifts late (X.ownedBars b n) (X.allot functionBars b n a').1 (X.allot seenBars b n a).1 ∧
      Lags (late || (X.ownedBars b n).any OwnedBar.short) (X.allot seenBars b n a).2
        (X.allot functionBars b n a').2 := by
  induction X generalizing b n late a a' with
  | nil => exact ⟨.nil, (Bool.or_false late).symm ▸ h⟩
  | cons dev fn c below rest ihb ihr =>
    have hown : Small (functionBars c) := hsmall _ List.mem_cons_self
    have hseenOwn : seenBars c = (functionBars c).map (sizedAs c) := hseen _ List.mem_cons_self
    rw [allot] at hin
    rw [allot, allot, hseenOwn]
    cases hbridge : isBridge c with
    | false =>
      rw [hbridge] at hin
      simp only [Bool.false_eq_true, if_false] at hin ⊢
      rw [AllSmall, functions_func hbridge] at hsmall
      rw [functions_func hbridge] at hseen
      have hinOwn := fun r hr => hin r (List.mem_append_left _ hr)
      obtain ⟨hdrifts, hlags⟩ := h.allot ha ⟨BitVec.ofNat 8 b, dev, fn⟩ c hown hinOwn
      have ha' := (Fills.bars ha ⟨BitVec.ofNat 8 b, dev, fn⟩ hown).inRegion hinOwn
      obtain ⟨hdrifts', hlags'⟩ := ihr (fun f hf => hsmall f (List.mem_cons_of_mem _ hf))
        (fun f hf => hseen f (List.mem_cons_of_mem _ hf)) hlags ha'
        fun r hr => hin r (List.mem_append_right _ hr)
      rw [ownedBars_func hbridge, List.any_append, ← Bool.or_assoc]
      exact ⟨hdrifts.append hdrifts', hlags'⟩
    | true =>
      rw [hbridge] at hin
      simp only [if_true] at hin ⊢
      rw [AllSmall, functions_bridge hbridge] at hsmall
      rw [functions_bridge hbridge] at hseen
      have hinOwn := fun r hr => hin r (List.mem_append_left _ hr)
      have hinBelow := fun r hr => hin r (List.mem_append_right _ (List.mem_append_left _ hr))
      have hbelow : below.AllSmall n (n + 1) := fun f hf =>
        hsmall f (List.mem_cons_of_mem _ (List.mem_append_left _ hf))
      obtain ⟨hdrifts, hlags⟩ := h.allot ha ⟨BitVec.ofNat 8 b, dev, fn⟩ c hown hinOwn
      have ha' := (Fills.bars ha ⟨BitVec.ofNat 8 b, dev, fn⟩ hown).inRegion hinOwn
      have hpad := Alloc.pad_inRegion ha'
      obtain ⟨hdrifts', hlags'⟩ := ihb hbelow
        (fun f hf => hseen f (List.mem_cons_of_mem _ (List.mem_append_left _ hf)))
        hlags.pad hpad hinBelow
      have hfills := below.fills hbelow hpad
      have hstop := hfills.inRegion hinBelow
      have hopen := Alloc.pad_mark ha' .io
      have hclose := hlags.pad.padFrom hlags' (fun hl => by rw [hl, Bool.true_or]) hstop
        (by rw [hopen]; exact dvd_roundUp _ _) (hfills.mark_le hinBelow .io)
      obtain ⟨hdrifts₂, hlags₂⟩ := ihr
        (fun f hf => hsmall f (List.mem_cons_of_mem _ (List.mem_append_right _ hf)))
        (fun f hf => hseen f (List.mem_cons_of_mem _ (List.mem_append_right _ hf)))
        hclose (Alloc.padFrom_inRegion hstop)
        fun r hr => hin r (List.mem_append_right _ (List.mem_append_right _ hr))
      rw [ownedBars_bridge hbridge, List.any_append, List.any_append, ← Bool.or_assoc,
        ← Bool.or_assoc]
      exact ⟨hdrifts.append (hdrifts'.append hdrifts₂), hlags₂⟩

end Bus

namespace Drifts

theorem escapes (h : Drifts late l rs rs') (hq : l = l₁ ++ q :: l₂) (hio : q.bar.space = .io)
    (hlate : late = true ∨ ∃ p ∈ l₁ ++ [q], p.short = true) :
    ∃ r ∈ rs', r.loc = q.loc ∧ r.space = .io ∧ 2 ^ 16 < r.stop := by
  induction h generalizing l₁ with
  | nil => cases l₁ <;> cases hq
  | @cons l rs rs' late r q' hloc hspace _ ih =>
    cases l₁ with
    | nil =>
      obtain ⟨rfl, rfl⟩ := List.cons.inj hq
      refine ⟨_, List.mem_cons_self, (q'.drifted_loc late r).trans hloc,
        (q'.drifted_space late r).trans (hspace.trans hio), ?_⟩
      rw [OwnedBar.drifted, Range.stop]
      by_cases hs : q'.short = true
      · rw [if_pos hs]
        dsimp only
        omega
      · obtain hlate | ⟨p, hp, hshort⟩ := hlate
        · rw [if_neg hs, if_pos ⟨hlate, hio⟩]
          dsimp only
          omega
        · rw [List.mem_singleton.1 hp] at hshort
          exact absurd hshort hs
    | cons p l₁ =>
      obtain ⟨rfl, rfl⟩ := List.cons.inj hq
      obtain ⟨r', hr', hescape⟩ := ih rfl (by
        obtain hlate | ⟨p, hp, hshort⟩ := hlate
        · exact .inl (by rw [hlate, Bool.true_or])
        · obtain rfl | hp := List.mem_cons.1 hp
          · exact .inl (by rw [hshort, Bool.or_true])
          · exact .inr ⟨p, hp, hshort⟩)
      exact ⟨r', List.mem_cons_of_mem _ hr', hescape⟩

theorem keeps {own : Loc → Prop} (h : Drifts late l rs rs')
    (hown : ∀ l₁ q l₂, l = l₁ ++ q :: l₂ → own q.loc → q.bar.space = .io →
      late = false ∧ ∀ p ∈ l₁ ++ [q], ¬ p.short = true) :
    List.Forall₂ (fun r r' => r'.loc = r.loc ∧ r'.space = r.space ∧
      (own r.loc ∨ r.space ≠ .io → r' = r)) rs rs' := by
  induction h with
  | nil => exact .nil
  | @cons l rs rs' late r q hloc hspace _ ih =>
    refine .cons ⟨q.drifted_loc late r, q.drifted_space late r, fun hkeep => ?_⟩
      (ih fun l₁ q' l₂ hl hq hio => ?_)
    · by_cases hio : q.bar.space = .io
      · obtain ⟨rfl, hshort⟩ := hown [] q l rfl
          (hloc ▸ hkeep.resolve_right fun hne => hne (hspace.trans hio)) hio
        have hnot := hshort q (List.mem_singleton_self q)
        rw [OwnedBar.drifted, if_neg hnot, if_neg fun hl => Bool.false_ne_true hl.1]
      · exact q.drifted_of_ne late r hio
    · obtain ⟨rfl, hshort⟩ := hown (q :: l₁) q' l₂ (congrArg (q :: ·) hl) hq hio
      refine ⟨?_, fun p hp => hshort p (List.mem_cons_of_mem q hp)⟩
      rw [Bool.false_or]
      exact Bool.eq_false_iff.2 (hshort q List.mem_cons_self)

theorem mem_iff (h : Drifts late l rs rs') (hmem : r.space ≠ .io) : r ∈ rs' ↔ r ∈ rs := by
  induction h with
  | nil => exact Iff.rfl
  | @cons l rs rs' late r' q hloc hspace _ ih =>
    rw [List.mem_cons, List.mem_cons, ih]
    by_cases hio : q.bar.space = .io
    · have hne : r ≠ r' := fun heq => hmem (heq ▸ hspace.trans hio)
      have hne' : r ≠ q.drifted late r' := fun heq =>
        hmem (heq ▸ (q.drifted_space late r').trans (hspace.trans hio))
      rw [or_iff_right hne, or_iff_right hne']
    · rw [q.drifted_of_ne late r' hio]

end Drifts

end Pegasos2.Pci
