import Mathlib.Data.List.Sort
import Mathlib.Data.Set.Lattice
import Mathlib.Order.CompletePartialOrder
import Mathlib.Order.Interval.Set.LinearOrder
import Mathlib.Tactic.Common

namespace Intervals
set_option autoImplicit true

variable {α : Type} [LinearOrder α] {a b : α} {l r m : List (α × α)} {i j : α × α}

/-- The points that some interval of the list covers. -/
def cover (l : List (α × α)) : Set α := {x | ∃ i ∈ l, x ∈ Set.Ico i.1 i.2}

@[simp] theorem cover_nil : cover ([] : List (α × α)) = ∅ := by
  ext x
  simp [cover]

@[simp] theorem cover_cons : cover (i :: l) = Set.Ico i.1 i.2 ∪ cover l := by
  ext x
  simp [cover]

@[simp] theorem cover_append : cover (l ++ r) = cover l ∪ cover r := by
  ext x
  simp only [cover, List.mem_append, Set.mem_ofPred_eq, Set.mem_union, or_and_right, exists_or]

theorem Ico_subset_cover_of_mem (h : i ∈ l) : Set.Ico i.1 i.2 ⊆ cover l :=
  fun _ hx => ⟨i, h, hx⟩

/-- The intervals are not empty, they ascend, and between two of them there is a gap. -/
structure Separated (l : List (α × α)) : Prop where
  nonempty : ∀ i ∈ l, i.1 < i.2
  apart : l.Pairwise (fun i j => i.2 < j.1)

namespace Separated

theorem nil : Separated ([] : List (α × α)) where
  nonempty := by simp
  apart := .nil

theorem singleton (h : a < b) : Separated [(a, b)] where
  nonempty := by
    intro i hi
    rw [List.mem_singleton.1 hi]
    exact h
  apart := List.pairwise_singleton _ _

theorem cons_iff : Separated (i :: l) ↔ i.1 < i.2 ∧ (∀ j ∈ l, i.2 < j.1) ∧ Separated l := by
  constructor
  · intro h
    obtain ⟨ha, hl⟩ := List.pairwise_cons.1 h.apart
    exact ⟨h.nonempty i List.mem_cons_self, ha,
      ⟨fun j hj => h.nonempty j (List.mem_cons_of_mem _ hj), hl⟩⟩
  · rintro ⟨hi, ha, hl⟩
    exact ⟨List.forall_mem_cons.2 ⟨hi, hl.nonempty⟩, List.pairwise_cons.2 ⟨ha, hl.apart⟩⟩

theorem append_iff :
    Separated (l ++ r) ↔ Separated l ∧ Separated r ∧ ∀ i ∈ l, ∀ j ∈ r, i.2 < j.1 := by
  constructor
  · intro h
    obtain ⟨hl, hr, hlr⟩ := List.pairwise_append.1 h.apart
    exact ⟨⟨fun i hi => h.nonempty i (List.mem_append_left _ hi), hl⟩,
      ⟨fun i hi => h.nonempty i (List.mem_append_right _ hi), hr⟩, hlr⟩
  · rintro ⟨hl, hr, hlr⟩
    refine ⟨fun i hi => ?_, List.pairwise_append.2 ⟨hl.apart, hr.apart, hlr⟩⟩
    obtain hi | hi := List.mem_append.1 hi
    · exact hl.nonempty i hi
    · exact hr.nonempty i hi

/-- Two intervals of the list that share a point, or that touch, are the same one. -/
theorem eq_of_touch (h : Separated l) (hi : i ∈ l) (hj : j ∈ l) (hij : i.1 ≤ j.2)
    (hji : j.1 ≤ i.2) : i = j := by
  induction l with
  | nil => cases hi
  | cons k l ih =>
    obtain ⟨-, ha, hl⟩ := cons_iff.1 h
    obtain hik | hi := List.mem_cons.1 hi
    · obtain hjk | hj := List.mem_cons.1 hj
      · exact hik.trans hjk.symm
      · exact absurd hji (not_le.2 (hik ▸ ha j hj))
    · obtain hjk | hj := List.mem_cons.1 hj
      · exact absurd hij (not_le.2 (hjk ▸ ha i hi))
      · exact ih hl hi hj

theorem exists_of_Ico_subset (h : Separated l) (hab : a < b) (hs : Set.Ico a b ⊆ cover l) :
    ∃ i ∈ l, i.1 ≤ a ∧ b ≤ i.2 := by
  obtain ⟨i, hi, hia, hai⟩ := hs ⟨le_rfl, hab⟩
  refine ⟨i, hi, hia, ?_⟩
  by_contra hb
  have hlt := not_le.1 hb
  -- the end of the interval would be covered by another one, which touches this one
  obtain ⟨j, hj, hji, hij⟩ := hs ⟨hai.le, hlt⟩
  have he := h.eq_of_touch hi hj (hia.trans (hai.le.trans hij.le)) hji
  subst he
  exact absurd hij (lt_irrefl _)

theorem Ico_subset_iff (h : Separated l) (hab : a < b) :
    Set.Ico a b ⊆ cover l ↔ ∃ i ∈ l, i.1 ≤ a ∧ b ≤ i.2 := by
  refine ⟨h.exists_of_Ico_subset hab, ?_⟩
  rintro ⟨i, hi, hia, hbi⟩
  exact (Set.Ico_subset_Ico hia hbi).trans (Ico_subset_cover_of_mem hi)

/-- Where the last interval that does not start behind `a` is known, it decides. -/
theorem Ico_subset_iff_of_split (h : Separated (l ++ i :: r)) (hab : a < b) (ha : i.1 ≤ a)
    (hr : ∀ j ∈ r, a < j.1) : Set.Ico a b ⊆ cover (l ++ i :: r) ↔ b ≤ i.2 := by
  have hi : i ∈ l ++ i :: r := List.mem_append_right _ List.mem_cons_self
  rw [h.Ico_subset_iff hab]
  refine ⟨?_, fun hb => ⟨i, hi, ha, hb⟩⟩
  rintro ⟨j, hj, hja, hbj⟩
  obtain hjl | hj := List.mem_append.1 hj
  · obtain ⟨-, -, hlr⟩ := append_iff.1 h
    have hlt := hlr j hjl i List.mem_cons_self
    exact absurd (hlt.trans_le (ha.trans (hab.le.trans hbj))) (lt_irrefl _)
  · obtain rfl | hj := List.mem_cons.1 hj
    · exact hbj
    · exact absurd (hr j hj) (not_lt.2 hja)

theorem not_Ico_subset (hab : a < b) (hr : ∀ j ∈ r, a < j.1) : ¬ Set.Ico a b ⊆ cover r := by
  intro hs
  obtain ⟨j, hj, hja, -⟩ := hs ⟨le_rfl, hab⟩
  exact absurd (hr j hj) (not_lt.2 hja)

theorem mem_of_cover_eq (hl : Separated l) (hm : Separated m) (hc : cover l = cover m)
    (hi : i ∈ l) : i ∈ m := by
  obtain ⟨j, hj, hji, hij⟩ := hm.exists_of_Ico_subset (hl.nonempty i hi)
    (hc ▸ Ico_subset_cover_of_mem hi)
  obtain ⟨k, hk, hkj, hjk⟩ := hl.exists_of_Ico_subset (hm.nonempty j hj)
    (hc ▸ Ico_subset_cover_of_mem hj)
  have hik := hl.eq_of_touch hi hk ((hl.nonempty i hi).le.trans (hij.trans hjk))
    (hkj.trans (hji.trans (hl.nonempty i hi).le))
  subst hik
  have he : i = j := Prod.ext (le_antisymm hkj hji) (le_antisymm hij hjk)
  exact he ▸ hj

theorem eq_of_cover_eq (hl : Separated l) (hm : Separated m) (hc : cover l = cover m) :
    l = m := by
  have hd {n : List (α × α)} (hn : Separated n) : n.Nodup := by
    refine hn.apart.imp_of_mem fun {i j} hi _ hij he => ?_
    subst he
    exact absurd (hij.trans (hn.nonempty i hi)) (lt_irrefl _)
  have hp := (List.perm_ext_iff_of_nodup (hd hl) (hd hm)).2 fun i =>
    ⟨hl.mem_of_cover_eq hm hc, hm.mem_of_cover_eq hl hc.symm⟩
  refine hp.eq_of_pairwise (fun i j hi hj hij hji => ?_) hl.apart hm.apart
  have hj' := hm.mem_of_cover_eq hl hc.symm hj
  exact hl.eq_of_touch hi hj' ((hl.nonempty i hi).le.trans (hij.le.trans (hl.nonempty j hj').le))
    (hji.le.trans' (hl.nonempty j hj').le |>.trans (hl.nonempty i hi).le)

theorem disjoint_iff (h : Separated l) (hab : a < b) :
    Disjoint (Set.Ico a b) (cover l) ↔ ∀ i ∈ l, b ≤ i.1 ∨ i.2 ≤ a := by
  rw [Set.disjoint_left]
  constructor
  · intro hd i hi
    by_contra hc
    obtain ⟨h1, h2⟩ := not_or.1 hc
    refine hd (a := max a i.1) ⟨le_max_left _ _, max_lt hab (not_le.1 h1)⟩ ⟨i, hi, ?_⟩
    exact ⟨le_max_right _ _, max_lt (not_le.1 h2) (h.nonempty i hi)⟩
  · rintro hd x ⟨hax, hxb⟩ ⟨i, hi, hix, hxi⟩
    obtain h1 | h1 := hd i hi
    · exact absurd (hxb.trans_le (h1.trans hix)) (lt_irrefl _)
    · exact absurd (hxi.trans_le (h1.trans hax)) (lt_irrefl _)

end Separated

/-- What is left of an interval around a stretch of it. -/
def carve (i : α × α) (a b : α) : List (α × α) :=
  (if i.1 < a then [(i.1, a)] else []) ++ (if b < i.2 then [(b, i.2)] else [])

theorem mem_carve : j ∈ carve i a b ↔
    (j = (i.1, a) ∧ i.1 < a) ∨ (j = (b, i.2) ∧ b < i.2) := by
  rw [carve, List.mem_append]
  split <;> split <;> simp_all

theorem carve_separated (hab : a < b) : Separated (carve i a b) := by
  rw [carve, Separated.append_iff]
  refine ⟨?_, ?_, ?_⟩
  · split
    · exact .singleton ‹_›
    · exact .nil
  · split
    · exact .singleton ‹_›
    · exact .nil
  · intro j hj k hk
    split at hj
    · split at hk
      · rw [List.mem_singleton.1 hj, List.mem_singleton.1 hk]
        exact hab
      · cases hk
    · cases hj

theorem Separated.carve (h : Separated (l ++ i :: r)) (ha : i.1 ≤ a) (hab : a < b)
    (hb : b ≤ i.2) : Separated (l ++ carve i a b ++ r) := by
  obtain ⟨hl, hir, hlir⟩ := append_iff.1 h
  obtain ⟨-, hi, hr⟩ := cons_iff.1 hir
  refine append_iff.2 ⟨append_iff.2 ⟨hl, carve_separated hab, ?_⟩, hr, ?_⟩
  · intro j hj k hk
    have hji := hlir j hj i List.mem_cons_self
    obtain ⟨rfl, -⟩ | ⟨rfl, -⟩ := mem_carve.1 hk
    · exact hji
    · exact hji.trans_le (ha.trans hab.le)
  · intro j hj k hk
    obtain hj | hj := List.mem_append.1 hj
    · exact hlir j hj k (List.mem_cons_of_mem _ hk)
    · obtain ⟨rfl, -⟩ | ⟨rfl, -⟩ := mem_carve.1 hj
      · exact (hab.le.trans hb).trans_lt (hi k hk)
      · exact hi k hk

theorem cover_carve (h : Separated (l ++ i :: r)) (ha : i.1 ≤ a) (hab : a < b) (hb : b ≤ i.2) :
    cover (l ++ carve i a b ++ r) = cover (l ++ i :: r) \ Set.Ico a b := by
  obtain ⟨-, hir, hlir⟩ := Separated.append_iff.1 h
  obtain ⟨-, hi, hr⟩ := Separated.cons_iff.1 hir
  ext x
  simp only [cover_append, cover_cons, Set.mem_union, Set.mem_sdiff, Set.mem_Ico]
  have hleft (hx : x ∈ cover l) : x < a := by
    obtain ⟨j, hj, -, hxj⟩ := hx
    exact (hxj.trans (hlir j hj i List.mem_cons_self)).trans_le ha
  have hright (hx : x ∈ cover r) : b ≤ x := by
    obtain ⟨j, hj, hjx, -⟩ := hx
    exact hb.trans ((hi j hj).le.trans hjx)
  have hmid : x ∈ cover (carve i a b) ↔ (i.1 ≤ x ∧ x < a) ∨ (b ≤ x ∧ x < i.2) := by
    constructor
    · rintro ⟨j, hj, hjx, hxj⟩
      obtain ⟨rfl, -⟩ | ⟨rfl, -⟩ := mem_carve.1 hj
      · exact .inl ⟨hjx, hxj⟩
      · exact .inr ⟨hjx, hxj⟩
    · rintro (⟨h1, h2⟩ | ⟨h1, h2⟩)
      · exact ⟨_, mem_carve.2 (.inl ⟨rfl, h1.trans_lt h2⟩), h1, h2⟩
      · exact ⟨_, mem_carve.2 (.inr ⟨rfl, h1.trans_lt h2⟩), h1, h2⟩
  rw [hmid]
  constructor
  · rintro ((hx | ⟨h1, h2⟩ | ⟨h1, h2⟩) | hx)
    · exact ⟨.inl hx, fun hx' => absurd (hleft hx) (not_lt.2 hx'.1)⟩
    · exact ⟨.inr (.inl ⟨h1, h2.trans_le (hab.le.trans hb)⟩), fun hx' => absurd h2 (not_lt.2 hx'.1)⟩
    · exact ⟨.inr (.inl ⟨ha.trans (hab.le.trans h1), h2⟩), fun hx' => absurd hx'.2 (not_lt.2 h1)⟩
    · exact ⟨.inr (.inr hx), fun hx' => absurd hx'.2 (not_lt.2 (hright hx))⟩
  · rintro ⟨hx | ⟨h1, h2⟩ | hx, hn⟩
    · exact .inl (.inl hx)
    · by_cases hxa : x < a
      · exact .inl (.inr (.inl ⟨h1, hxa⟩))
      · refine .inl (.inr (.inr ⟨?_, h2⟩))
        by_contra hbx
        exact hn ⟨not_lt.1 hxa, not_le.1 hbx⟩
    · exact .inr hx

/-- The stretch and the intervals behind it, joined with the first of them where they touch. -/
def joinRight (i : α × α) : List (α × α) → List (α × α)
  | [] => [i]
  | j :: r => if i.2 = j.1 then (i.1, j.2) :: r else i :: j :: r

theorem joinRight_touch (h : i.2 = j.1) : joinRight i (j :: r) = (i.1, j.2) :: r := if_pos h

theorem joinRight_gap (h : i.2 ≠ j.1) : joinRight i (j :: r) = i :: j :: r := if_neg h

theorem Separated.joinRight (h : Separated (l ++ r)) (hi : i.1 < i.2) (hl : ∀ j ∈ l, j.2 < i.1)
    (hr : ∀ j ∈ r, i.2 ≤ j.1) : Separated (l ++ joinRight i r) := by
  obtain ⟨hsl, hsr, hlr⟩ := append_iff.1 h
  cases r with
  | nil =>
    refine append_iff.2 ⟨hsl, .singleton hi, ?_⟩
    intro j hj k hk
    rw [List.mem_singleton.1 hk]
    exact hl j hj
  | cons k r =>
    obtain ⟨hk, hkr, hsr'⟩ := cons_iff.1 hsr
    rw [Intervals.joinRight]
    split
    · refine append_iff.2 ⟨hsl, cons_iff.2 ⟨(hi.trans_le (hr k List.mem_cons_self)).trans hk,
        hkr, hsr'⟩, ?_⟩
      intro j hj n hn
      obtain rfl | hn := List.mem_cons.1 hn
      · exact hl j hj
      · exact hlr j hj n (List.mem_cons_of_mem _ hn)
    · rename_i hne
      have hik : i.2 < k.1 := lt_of_le_of_ne (hr k List.mem_cons_self) hne
      refine append_iff.2 ⟨hsl, cons_iff.2 ⟨hi, ?_, hsr⟩, ?_⟩
      · intro n hn
        obtain rfl | hn := List.mem_cons.1 hn
        · exact hik
        · exact hik.trans (hk.trans (hkr n hn))
      · intro j hj n hn
        obtain rfl | hn := List.mem_cons.1 hn
        · exact hl j hj
        · exact hlr j hj n hn

theorem cover_joinRight (hi : i.1 < i.2) (hr : Separated r) :
    cover (joinRight i r) = Set.Ico i.1 i.2 ∪ cover r := by
  cases r with
  | nil => rw [joinRight, cover_cons]
  | cons k r =>
    obtain ⟨hk, -, -⟩ := Separated.cons_iff.1 hr
    rw [joinRight]
    split
    · rename_i he
      rw [cover_cons, cover_cons, ← Set.union_assoc, he,
        Set.Ico_union_Ico_eq_Ico (he ▸ hi.le) hk.le]
    · rw [cover_cons]

end Intervals
