import Pegasos2.AllocConstrained

namespace Pegasos2.Alloc
open Intervals
set_option autoImplicit true

variable {acells scells : Nat}

/-- `L` lists the stretches that are claimed: they lie apart in the region, and the rest of the
region is free. -/
structure Ledger (R : Region acells scells) (a : Allocator acells scells)
    (L : List (Nat × Nat)) : Prop where
  sound : Sound R a
  nonempty : ∀ i ∈ L, i.1 < i.2
  inside : ∀ i ∈ L, R.lo ≤ i.1 ∧ i.2 ≤ R.hi
  apart : L.Pairwise fun i j => Disjoint (Set.Ico i.1 i.2) (Set.Ico j.1 j.2)
  free : a.free = Set.Ico R.lo R.hi \ cover L

theorem cover_perm {l m : List (Nat × Nat)} (h : l.Perm m) : cover l = cover m := by
  ext x
  simp only [cover, h.mem_iff]

theorem disjoint_cover_iff {s : Set Nat} {l : List (Nat × Nat)} :
    Disjoint s (cover l) ↔ ∀ j ∈ l, Disjoint s (Set.Ico j.1 j.2) := by
  constructor
  · exact fun h j hj => h.mono_right (Ico_subset_cover_of_mem hj)
  · intro h
    rw [Set.disjoint_left]
    rintro x hx ⟨j, hj, hxj⟩
    exact Set.disjoint_left.1 (h j hj) hx hxj

namespace Ledger

variable {R : Region acells scells} {a : Allocator acells scells} {L : List (Nat × Nat)}

theorem start (h : Sound R a) (hf : a.free = Set.Ico R.lo R.hi) : Ledger R a [] where
  sound := h
  nonempty := fun _ hi => absurd hi List.not_mem_nil
  inside := fun _ hi => absurd hi List.not_mem_nil
  apart := .nil
  free := by rw [hf, cover_nil, Set.sdiff_empty]

theorem claim (h : Ledger R a L) (hi : i.1 < i.2) (hc : Claimed R malloc a i (ret, a')) :
    Ledger R a' (if ret = .noError then i :: L else L) := by
  cases hc with
  | taken => exact h
  | memory => exact h
  | done hfree hs hf =>
    rw [if_pos rfl]
    have hsub := hfree.trans (h.free.subset)
    obtain ⟨h1, h2⟩ := (Set.Ico_subset_Ico_iff hi).1 (hsub.trans Set.sdiff_subset)
    refine ⟨hs, List.forall_mem_cons.2 ⟨hi, h.nonempty⟩,
      List.forall_mem_cons.2 ⟨⟨h1, h2⟩, h.inside⟩, List.pairwise_cons.2 ⟨?_, h.apart⟩, ?_⟩
    · intro j hj
      refine Set.disjoint_left.2 fun x hx hxj => ?_
      exact (hsub hx).2 (Ico_subset_cover_of_mem hj hxj)
    · rw [hf, h.free, cover_cons, Set.sdiff_sdiff, Set.union_comm]

/-- The release of an entry is never refused as an error, and takes it off the list. -/
theorem release (h : Ledger R a L) (hi : i ∈ L) (hr : Released R malloc a i (ret, a')) :
    ret ≠ .eBadArgument ∧ Ledger R a' (if ret = .noError then L.erase i else L) := by
  have hdisj : Disjoint (Set.Ico i.1 i.2) a.free := by
    rw [h.free]
    exact Set.disjoint_left.2 fun x hx hxf => hxf.2 (Ico_subset_cover_of_mem hi hx)
  cases hr with
  | free hn => exact absurd hdisj hn
  | memory => exact ⟨(Retcode.noConfusion ·), h⟩
  | done _ hs hf =>
    refine ⟨(Retcode.noConfusion ·), ?_⟩
    rw [if_pos rfl]
    have hperm := List.perm_cons_erase hi
    have hap := (hperm.pairwise_iff fun {j k} hjk => hjk.symm).1 h.apart
    obtain ⟨hapart, hrest⟩ := List.pairwise_cons.1 hap
    have hsub : ∀ j ∈ L.erase i, j ∈ L := fun j hj => List.mem_of_mem_erase hj
    refine ⟨hs, fun j hj => h.nonempty j (hsub j hj), fun j hj => h.inside j (hsub j hj), hrest, ?_⟩
    have hout : Disjoint (Set.Ico i.1 i.2) (cover (L.erase i)) := disjoint_cover_iff.2 hapart
    have hin : Set.Ico i.1 i.2 ⊆ Set.Ico R.lo R.hi :=
      Set.Ico_subset_Ico (h.inside i hi).1 (h.inside i hi).2
    rw [hf, h.free, cover_perm hperm, cover_cons]
    ext x
    constructor
    · rintro (⟨hx, hn⟩ | hx)
      · exact ⟨hx, fun hc => hn (.inr hc)⟩
      · exact ⟨hin hx, Set.disjoint_left.1 hout hx⟩
    · rintro ⟨hx, hn⟩
      by_cases hxi : x ∈ Set.Ico i.1 i.2
      · exact .inr hxi
      · exact .inl ⟨hx, fun hc => hc.elim hxi hn⟩

/-- Once everything has been released the list is the one block it was at the start. -/
theorem extents_of_nil (h : Ledger R a []) (hlt : R.lo < R.hi) : a.extents = [(R.lo, R.hi)] := by
  refine h.sound.separated.eq_of_cover_eq (.singleton hlt) ?_
  have hf := h.free
  rw [cover_nil, Set.sdiff_empty] at hf
  rw [cover_cons, cover_nil, Set.union_empty]
  exact hf

end Ledger

/-- A call that is refused leaves the allocator as it was. -/
def Keeps (a : Allocator acells scells) (r : Retcode × Allocator acells scells) : Prop :=
  r.1 ≠ .noError → r.2 = a

theorem allocAtStart_keeps (a : Allocator acells scells) (size p b rest) :
    Keeps a (allocAtStart a size p b rest) := by
  simp only [allocAtStart]
  split
  · exact fun _ => rfl
  · split <;> exact (absurd rfl ·)

theorem allocInside_keeps (malloc : Bool) (a : Allocator acells scells) (addr size passed rest) :
    Keeps a (allocInside malloc a addr size passed rest) := by
  cases passed with
  | nil => exact fun _ => rfl
  | cons p passed =>
    simp only [allocInside]
    split
    · exact fun _ => rfl
    · split
      · exact (absurd rfl ·)
      · split
        · exact (absurd rfl ·)
        · exact fun _ => rfl

theorem allocFixed_keeps (malloc : Bool) (a : Allocator acells scells) (addr size) :
    Keeps a (allocFixed malloc a addr size) := by
  simp only [allocFixed]
  split
  · exact fun _ => rfl
  · generalize findSpot addr [] a.list = s
    obtain ⟨passed, rest⟩ := s
    cases rest with
    | nil => exact allocInside_keeps _ _ _ _ _ _
    | cons b rest =>
      simp only
      split
      · exact allocAtStart_keeps _ _ _ _ _
      · exact allocInside_keeps _ _ _ _ _ _

theorem constrainedLoop_keeps (malloc : Bool) (a : Allocator acells scells)
    (min max align mask size l addr) :
    (constrainedLoop malloc a min max align mask size l addr).1 ≠ .noError →
      (constrainedLoop malloc a min max align mask size l addr).2.1 = a := by
  induction l generalizing addr with
  | nil => exact fun _ => rfl
  | cons b l ih =>
    rw [constrainedLoop]
    cases consider a.scells_le min max align mask size b with
    | next addr => exact ih addr
    | stop => exact fun _ => rfl
    | take addr => exact allocFixed_keeps malloc a addr size

theorem insertBlock_keeps (malloc : Bool) (a : Allocator acells scells)
    (addr size x passed rest) :
    Keeps a (insertBlock malloc a addr size x passed rest) := by
  cases rest with
  | nil =>
    cases malloc with
    | true => exact (absurd rfl ·)
    | false => exact fun _ => rfl
  | cons b rest =>
    simp only [insertBlock]
    split
    · exact (absurd rfl ·)
    · cases malloc with
      | true => exact (absurd rfl ·)
      | false => exact fun _ => rfl

theorem freeBlock_keeps (malloc : Bool) (a : Allocator acells scells) (addr size) :
    Keeps a (freeBlock malloc a addr size) := by
  simp only [freeBlock]
  split
  · exact fun _ => rfl
  · split
    · exact fun _ => rfl
    · split
      · split
        · exact (absurd rfl ·)
        · exact insertBlock_keeps _ _ _ _ _ _ _
      · exact insertBlock_keeps _ _ _ _ _ _ _

/-- The allocators that calls of its functions lead to, with the stretches claimed so far. The
calls come in any order and may find no memory for another block. They are for a size other than
zero, a fixed one does not end at or beyond the last address, a minimum is not out of the reach of
the size cells, alignments are powers of two, and what is released is one stretch as it was
claimed. -/
inductive Serving (R : Region acells scells) : Allocator acells scells → List (Nat × Nat) → Prop
  | start (h : Sound R a) (hf : a.free = Set.Ico R.lo R.hi) : Serving R a []
  | fixed (h : Serving R a L) (malloc : Bool) (addr : Cells acells) (size : Cells scells)
      (hsize : 0 < size.val) (hend : addr.val + size.val < 2 ^ (32 * acells))
      (he : allocFixed malloc a addr size = (ret, a')) :
      Serving R a' (if ret = .noError then (addr.val, addr.val + size.val) :: L else L)
  | constrained (h : Serving R a L) (malloc : Bool) (min max align mask : Option (Cells acells))
      (size : Cells scells) (addr : Cells acells) (hsize : 0 < size.val)
      (hmin : ∀ m ∈ min, m.val < R.lo + 2 ^ (32 * scells)) (halign : ∀ l ∈ align, Power scells l)
      (he : allocConstrained malloc a min max align mask size addr = (ret, a', addr', align')) :
      Serving R a' (if ret = .noError then (addr'.val, addr'.val + size.val) :: L else L)
  | block (h : Serving R a L) (malloc : Bool) (size : Cells scells) (addr : Cells acells)
      (hsize : 0 < size.val) (he : allocBlock malloc a size addr = (ret, a', addr')) :
      Serving R a' (if ret = .noError then (addr'.val, addr'.val + size.val) :: L else L)
  | free (h : Serving R a L) (malloc : Bool) (addr : Cells acells) (size : Cells scells)
      (hi : (addr.val, addr.val + size.val) ∈ L) (he : freeBlock malloc a addr size = (ret, a')) :
      Serving R a' (if ret = .noError then L.erase (addr.val, addr.val + size.val) else L)

section

variable {R : Region acells scells} {a : Allocator acells scells} {L : List (Nat × Nat)}

theorem Ledger.place (h : Ledger R a L) (hn : 0 < n)
    (hp : Placed R malloc a allowed mask n (ret, a', addr)) :
    Ledger R a' (if ret = .noError then (addr.val, addr.val + n) :: L else L) := by
  cases hp with
  | place _ _ _ _ hc => exact h.claim (Nat.lt_add_of_pos_right hn) hc
  | none => exact h

theorem Serving.ledger (h : Serving R a L) : Ledger R a L := by
  induction h with
  | start h hf => exact .start h hf
  | fixed h malloc addr size hsize hend he ih =>
    have hc := allocFixed_claimed malloc ih.sound hsize hend
    rw [he] at hc
    exact ih.claim (Nat.lt_add_of_pos_right hsize) hc
  | constrained h malloc min max align mask size addr hsize hmin halign he ih =>
    have hp := allocConstrained_placed malloc min max align mask ih.sound hsize
      hmin halign addr
    rw [he] at hp
    exact ih.place hsize hp
  | block h malloc size addr hsize he ih =>
    have hp := allocBlock_placed malloc ih.sound hsize addr
    rw [he] at hp
    exact ih.place hsize hp
  | free h malloc addr size hi he ih =>
    have hsize := ih.nonempty _ hi
    have hin := ih.inside _ hi
    have hr := freeBlock_released malloc ih.sound addr size
      (by simp only at hsize; omega) hin.1 hin.2
    rw [he] at hr
    exact (ih.release hi hr).2

/-- However the calls are ordered, no two claims share an address, exactly the unclaimed part of
the region is free, and a release of all claims brings back the one block of the start. -/
theorem serving_exact (h : Serving R a L) (hlt : R.lo < R.hi) :
    L.Pairwise (fun i j => Disjoint (Set.Ico i.1 i.2) (Set.Ico j.1 j.2)) ∧
      (∀ i ∈ L, R.lo ≤ i.1 ∧ i.2 ≤ R.hi) ∧ a.free = Set.Ico R.lo R.hi \ cover L ∧
      Separated a.extents ∧ (L = [] → a.extents = [(R.lo, R.hi)]) := by
  have hl := h.ledger
  refine ⟨hl.apart, hl.inside, hl.free, hl.sound.separated, ?_⟩
  rintro rfl
  exact hl.extents_of_nil hlt

end

theorem serving_exact_claimed :
    let a : Allocator 2 1 := ⟨[⟨⟨[0, 1], rfl⟩, ⟨[0x4000], rfl⟩⟩], by decide⟩
    let a' := (allocFixed true a ⟨[0, 1], rfl⟩ ⟨[0x100], rfl⟩).2
    a'.free = Set.Ico 0x100000000 0x100004000 \ cover [(0x100000000, 0x100000100)] ∧
      Separated a'.extents := by
  intro a a'
  have hs : Sound ⟨0x100000000, 0x100004000, by decide, by decide⟩ a := by
    refine ⟨.singleton (by decide), ?_⟩
    intro i hi
    rw [List.mem_singleton.1 hi]
    exact ⟨by decide, by decide⟩
  have hf : a.free = Set.Ico 0x100000000 0x100004000 := by
    rw [Allocator.free, show a.extents = [(0x100000000, 0x100004000)] by decide, cover_cons,
      cover_nil, Set.union_empty]
  have he : allocFixed true a ⟨[0, 1], rfl⟩ ⟨[0x100], rfl⟩ = (.noError, a') := rfl
  obtain ⟨-, -, h1, h2, -⟩ := serving_exact
    ((Serving.start hs hf).fixed true _ _ (by decide) (by decide) he) (by decide)
  exact ⟨h1, h2⟩

end Pegasos2.Alloc
