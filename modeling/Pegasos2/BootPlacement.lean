import Pegasos2.BootKernel

namespace Pegasos2.BootKernel
set_option autoImplicit true

/-- What pass 1 has checked of an entry that occupies memory. -/
structure Phdr.Valid (h : Phdr) : Prop where
  filesz_le : h.filesz ≤ h.memsz
  source_lt : h.offset + h.filesz < 2 ^ 32
  below_flash : h.vaddr + h.memsz ≤ flashRangeStart

/-- The end of the highest destination among the first `n` program headers. -/
def highest (eh : Buf) (e : Ehdr) : Nat → Nat
  | 0 => 0
  | n + 1 =>
    let h := phdr eh e n
    if h.Occupies then max (highest eh e n) (h.vaddr + h.memsz) else highest eh e n

theorem phdr_lt (eh : Buf) (e : Ehdr) (i : Nat) :
    (phdr eh e i).offset < 2 ^ 32 ∧ (phdr eh e i).vaddr < 2 ^ 32 ∧
      (phdr eh e i).filesz < 2 ^ 32 ∧ (phdr eh e i).memsz < 2 ^ 32 :=
  ⟨be32_lt _ _, be32_lt _ _, be32_lt _ _, be32_lt _ _⟩

theorem u32AddOvf_eq_false (ha : a < 2 ^ 32) (hb : b < 2 ^ 32)
    (h : (u32AddOvf a b).2 = false) : a + b < 2 ^ 32 ∧ (u32AddOvf a b).1 = a + b := by
  simp only [u32AddOvf, decide_eq_false_iff_not] at h ⊢
  omega

/-- An accepted entry is either skipped or valid, and then raises `high_end` to its end. -/
theorem checkPhdr_ok (h : checkPhdr eh e acc i = .ok acc') :
    (¬ (phdr eh e i).Occupies ∧ acc' = acc) ∨
      ((phdr eh e i).Occupies ∧ (phdr eh e i).Valid ∧
        acc'.2 = max acc.2 ((phdr eh e i).vaddr + (phdr eh e i).memsz)) := by
  obtain ⟨ho, hv, hf, hm⟩ := phdr_lt eh e i
  simp only [checkPhdr, Phdr.check] at h
  split at h
  · rename_i ht
    cases h
    exact .inl ⟨fun hocc => ht hocc.1, rfl⟩
  · rename_i ht
    split at h
    · rename_i hz
      cases h
      exact .inl ⟨fun hocc => hocc.2 hz, rfl⟩
    · rename_i hz
      split at h
      · cases h
      · rename_i hle
        split at h
        · cases h
        · rename_i hsrc
          split at h
          · cases h
          · rename_i hdst
            split at h
            · cases h
            · rename_i hflash
              cases h
              obtain ⟨hs, -⟩ := u32AddOvf_eq_false ho hf (Bool.eq_false_iff.2 hsrc)
              obtain ⟨-, hd⟩ := u32AddOvf_eq_false hv hm (Bool.eq_false_iff.2 hdst)
              rw [hd] at hflash ⊢
              refine .inr ⟨⟨not_not.1 ht, hz⟩, ⟨by omega, hs, by omega⟩, ?_⟩
              dsimp only
              split <;> omega

/-- Pass 1 accepts only images all of whose occupying entries are valid. -/
theorem pass1_ok (h : pass1 eh e n = .ok acc) :
    (∀ i, i < n → (phdr eh e i).Occupies → (phdr eh e i).Valid) ∧
      acc.2 = highest eh e n := by
  induction n generalizing acc with
  | zero =>
    cases h
    exact ⟨fun i hi => absurd hi (Nat.not_lt_zero i), rfl⟩
  | succ n ih =>
    rw [pass1, except_bind_ok] at h
    obtain ⟨prev, hp, hcheck⟩ := h
    obtain ⟨hvalid, hhigh⟩ := ih hp
    rcases checkPhdr_ok hcheck with ⟨hskip, he⟩ | ⟨hocc, hv, he⟩
    · refine ⟨fun i hi hi' => ?_, ?_⟩
      · rcases Nat.lt_succ_iff_lt_or_eq.1 hi with hlt | heq
        · exact hvalid i hlt hi'
        · subst heq
          exact absurd hi' hskip
      · rw [highest, if_neg hskip, he, hhigh]
    · refine ⟨fun i hi hi' => ?_, ?_⟩
      · rcases Nat.lt_succ_iff_lt_or_eq.1 hi with hlt | heq
        · exact hvalid i hlt hi'
        · subst heq
          exact hv
      · rw [highest, if_pos hocc, he, hhigh]

theorem validate_ok (h : validate m load loadlen = .ok (e, hi)) :
    e = ehdr (view m load) ∧
      (∀ i, i < e.phnum → (phdr (view m load) e i).Occupies →
        (phdr (view m load) e i).Valid) ∧
      hi = highest (view m load) e e.phnum := by
  simp only [validate] at h
  split at h
  · cases h
  · split at h
    · cases h
    · split at h
      · cases h
      · split at h
        · cases h
        · split at h
          · cases h
          · rw [except_bind_ok] at h
            obtain ⟨acc, hp, h⟩ := h
            split at h
            · cases h
            · cases h
              exact ⟨rfl, pass1_ok hp⟩

/-- Memory after the first `j` bytes of a segment of the image `img` have been placed. -/
def copied (img : Buf) (h : Phdr) (m : Nat → UInt8) (j : Nat) : Nat → UInt8 := fun a =>
  if h.vaddr ≤ a ∧ a < h.vaddr + j then img (h.offset + (a - h.vaddr)) else m a

/-- Memory after a whole segment of the image `img` has been placed: `p_filesz` bytes of the
image, then zeros up to `p_memsz`. -/
def placed (img : Buf) (h : Phdr) (m : Nat → UInt8) : Nat → UInt8 := fun a =>
  if h.vaddr ≤ a ∧ a < h.vaddr + h.filesz then img (h.offset + (a - h.vaddr))
  else if h.vaddr + h.filesz ≤ a ∧ a < h.vaddr + h.memsz then 0
  else m a

/-- Memory after the first `n` program headers of the image `img` have been honoured, in
order. The image is the one found before anything was written. -/
def placedUpTo (img : Buf) (e : Ehdr) (m : Nat → UInt8) : Nat → (Nat → UInt8)
  | 0 => m
  | n + 1 =>
    if (phdr img e n).Occupies then placed img (phdr img e n) (placedUpTo img e m n)
    else placedUpTo img e m n

/-- The image is in memory where its program headers say, and nothing else has changed. -/
def Placed (s s' : LoadState) (load : Nat) : Prop :=
  let img := view s.mem load
  let e := ehdr img
  s'.mem = placedUpTo img e s.mem e.phnum ∧ s'.entrypoint = e.entry ∧
    s'.highEnd = highest img e e.phnum

/-- Two headers make pass 2 do the same. -/
def Phdr.Same (h h' : Phdr) : Prop :=
  (h.Occupies ↔ h'.Occupies) ∧ (h'.Occupies → h = h')

theorem Phdr.Same.of_eq {h h' : Phdr} (he : h = h') : h.Same h' := by
  subst he
  exact ⟨Iff.rfl, fun _ => rfl⟩

/-- No byte that pass 2 reads has been changed by what pass 2 has written before: each program
header is still the original one when its turn comes, and each source byte is still the
original one when it is copied. -/
def Intact (s : LoadState) (load : Nat) : Prop :=
  let img := view s.mem load
  let e := ehdr img
  ∀ i, i < e.phnum →
    (phdr (view (placedUpTo img e s.mem i) load) e i).Same (phdr img e i) ∧
      ((phdr img e i).Occupies → ∀ j, j < (phdr img e i).filesz →
        view (copied img (phdr img e i) (placedUpTo img e s.mem i) j)
          (load + (phdr img e i).offset) j = img ((phdr img e i).offset + j))

theorem copied_zero (img : Buf) (h : Phdr) (m : Nat → UInt8) : copied img h m 0 = m := by
  funext a
  rw [copied, if_neg (by omega)]

theorem copied_succ (img : Buf) (h : Phdr) (m : Nat → UInt8) (j : Nat) :
    copied img h m (j + 1) =
      Function.update (copied img h m j) (h.vaddr + j) (img (h.offset + j)) := by
  funext a
  by_cases he : a = h.vaddr + j
  · subst he
    rw [Function.update_self, copied, if_pos (by omega), Nat.add_sub_cancel_left]
  · rw [Function.update_of_ne he, copied, copied]
    by_cases hin : h.vaddr ≤ a ∧ a < h.vaddr + j
    · rw [if_pos hin, if_pos (by omega)]
    · rw [if_neg hin, if_neg (by omega)]

theorem Ram.store_mem (r : Ram) (v : UInt8) (ha : a < 2 ^ 32) :
    (r.store a v).mem = Function.update r.mem a v := by
  rw [Ram.store, Nat.mod_eq_of_lt ha]

theorem storeLoop_frame (hn : dst + n ≤ 2 ^ 32) (ha : ¬ (dst ≤ a ∧ a < dst + n)) :
    (storeLoop dst val n r).mem a = r.mem a := by
  induction n with
  | zero => rfl
  | succ n ih =>
    rw [storeLoop, Ram.store_mem _ _ (by omega), Function.update_of_ne (by omega)]
    exact ih (by omega) (by omega)

/-- The byte stored in turn `j` is computed from the memory after `j` turns. -/
theorem storeLoop_byte (hn : dst + n ≤ 2 ^ 32) (hj : j < n) :
    (storeLoop dst val n r).mem (dst + j) = val (storeLoop dst val j r).mem j := by
  induction n with
  | zero => exact absurd hj (Nat.not_lt_zero j)
  | succ n ih =>
    rw [storeLoop, Ram.store_mem _ _ (by omega)]
    by_cases he : j = n
    · subst he
      rw [Function.update_self]
    · rw [Function.update_of_ne (by omega)]
      exact ih (by omega) (by omega)

theorem mem_storeLoop_stored :
    a ∈ (storeLoop dst val n r).stored ↔
      (∃ j, j < n ∧ a = (dst + j) % 2 ^ 32) ∨ a ∈ r.stored := by
  induction n with
  | zero => simp [storeLoop]
  | succ n ih =>
    rw [storeLoop, Ram.store, List.mem_cons, ih]
    constructor
    · rintro (he | ⟨j, hj, he⟩ | hr)
      · exact .inl ⟨n, Nat.lt_succ_self n, he⟩
      · exact .inl ⟨j, by omega, he⟩
      · exact .inr hr
    · rintro (⟨j, hj, he⟩ | hr)
      · rcases Nat.lt_succ_iff_lt_or_eq.1 hj with hlt | heq
        · exact .inr (.inl ⟨j, hlt, he⟩)
        · subst heq
          exact .inl he
      · exact .inr (.inr hr)

/-- The forward copy places the image as long as the bytes it reads are the original ones. -/
theorem copyLoop_mem (img : Buf) (h : Phdr) (hn : h.vaddr + n ≤ 2 ^ 32)
    (hsrc : ∀ j, j < n → view (copied img h r.mem j) src j = img (h.offset + j)) :
    (copyLoop h.vaddr src n r).mem = copied img h r.mem n := by
  induction n with
  | zero => exact (copied_zero img h r.mem).symm
  | succ n ih =>
    have ih' := ih (by omega) (fun j hj => hsrc j (by omega))
    rw [copyLoop, storeLoop, ← copyLoop, Ram.store_mem _ _ (by omega), ih',
      hsrc n (Nat.lt_succ_self n), copied_succ]

theorem zeroLoop_mem (hn : dst + n ≤ 2 ^ 32) :
    (zeroLoop dst n r).mem = fun a => if dst ≤ a ∧ a < dst + n then 0 else r.mem a := by
  funext a
  by_cases hin : dst ≤ a ∧ a < dst + n
  · obtain ⟨j, rfl⟩ := Nat.exists_eq_add_of_le hin.1
    rw [zeroLoop, storeLoop_byte hn (by omega), if_pos hin]
  · rw [zeroLoop, storeLoop_frame hn hin, if_neg hin]

/-- A valid segment whose source bytes are intact is placed as it should be. -/
theorem place_mem (img : Buf) (h : Phdr) (hv : h.Valid)
    (hsrc : ∀ j, j < h.filesz →
      view (copied img h r.mem j) (load + h.offset) j = img (h.offset + j)) :
    (place load h r).mem = placed img h r.mem := by
  have hle := hv.filesz_le
  have hflash := hv.below_flash
  simp only [flashRangeStart] at hflash
  rw [place, zeroLoop_mem (by omega), copyLoop_mem img h (by omega) hsrc]
  funext a
  simp only [placed, copied]
  by_cases hzero : h.vaddr + h.filesz ≤ a ∧ a < h.vaddr + h.memsz
  · rw [if_pos (by omega), if_neg (by omega), if_pos hzero]
  · rw [if_neg (by omega), if_neg hzero]

theorem pass2_zero (load : Nat) (e : Ehdr) (r : Ram) : pass2 load e 0 r = r := rfl

theorem pass2_succ (load : Nat) (e : Ehdr) (n : Nat) (r : Ram) :
    pass2 load e (n + 1) r = placePhdr load e (pass2 load e n r) n := rfl

theorem placedUpTo_succ (img : Buf) (e : Ehdr) (m : Nat → UInt8) (n : Nat) :
    placedUpTo img e m (n + 1) =
      if (phdr img e n).Occupies then placed img (phdr img e n) (placedUpTo img e m n)
      else placedUpTo img e m n := rfl

theorem placePhdr_same (hs : (phdr (view r.mem load) e i).Same h) :
    placePhdr load e r i = if h.Occupies then place load h r else r := by
  rw [placePhdr]
  by_cases hocc : h.Occupies
  · have he := hs.2 hocc
    rw [if_pos hocc, he, if_pos hocc]
  · rw [if_neg hocc, if_neg (fun ho => hocc (hs.1.1 ho))]

/-- One step of pass 2 follows the specification while the image is intact. -/
theorem placePhdr_mem (img : Buf) (hv : (phdr img e i).Occupies → (phdr img e i).Valid)
    (hs : (phdr (view r.mem load) e i).Same (phdr img e i))
    (hsrc : (phdr img e i).Occupies → ∀ j, j < (phdr img e i).filesz →
      view (copied img (phdr img e i) r.mem j) (load + (phdr img e i).offset) j =
        img ((phdr img e i).offset + j)) :
    (placePhdr load e r i).mem =
      if (phdr img e i).Occupies then placed img (phdr img e i) r.mem else r.mem := by
  rw [placePhdr_same hs]
  by_cases hocc : (phdr img e i).Occupies
  · rw [if_pos hocc, if_pos hocc]
    exact place_mem img _ (hv hocc) (hsrc hocc)
  · rw [if_neg hocc, if_neg hocc]

/-- The whole of pass 2 follows the specification when every step finds the image intact. -/
theorem pass2_mem (img : Buf) (m : Nat → UInt8)
    (hv : ∀ i, i < n → (phdr img e i).Occupies → (phdr img e i).Valid)
    (hi : ∀ i, i < n →
      (phdr (view (placedUpTo img e m i) load) e i).Same (phdr img e i) ∧
        ((phdr img e i).Occupies → ∀ j, j < (phdr img e i).filesz →
          view (copied img (phdr img e i) (placedUpTo img e m i) j)
            (load + (phdr img e i).offset) j = img ((phdr img e i).offset + j))) :
    (pass2 load e n ⟨m, []⟩).mem = placedUpTo img e m n := by
  induction n with
  | zero => rfl
  | succ n ih =>
    have ih' := ih (fun i h => hv i (by omega)) (fun i h => hi i (by omega))
    obtain ⟨hs, hsrc⟩ := hi n (Nat.lt_succ_self n)
    rw [← ih'] at hs hsrc
    rw [pass2_succ, placePhdr_mem img (hv n (Nat.lt_succ_self n)) hs hsrc, placedUpTo_succ, ih']

def Phdr.Dest (h : Phdr) (a : Nat) : Prop := h.vaddr ≤ a ∧ a < h.vaddr + h.memsz

/-- No destination of the image meets another destination or a program-header field. -/
structure Separated (img : Buf) (e : Ehdr) (load : Nat) : Prop where
  table : ∀ i k t, i < e.phnum → k < e.phnum → t < 24 → (phdr img e i).Occupies →
    ¬ (phdr img e i).Dest ((load + (e.phoff + k * e.phentsz + t)) % 2 ^ 32)
  apart : ∀ i k a, i < e.phnum → k < e.phnum → i ≠ k → (phdr img e i).Occupies →
    (phdr img e k).Occupies → (phdr img e i).Dest a → ¬ (phdr img e k).Dest a

theorem phdr_congr {b c : Buf}
    (h : ∀ t, t < 24 → b (e.phoff + k * e.phentsz + t) = c (e.phoff + k * e.phentsz + t)) :
    phdr b e k = phdr c e k := by
  have hfield : ∀ o, o + 4 ≤ 24 →
      be32 b (e.phoff + k * e.phentsz + o) = be32 c (e.phoff + k * e.phentsz + o) := by
    intro o ho
    apply be32_congr
    intro j hj
    rw [Nat.add_assoc]
    exact h (o + j) (by omega)
  have h0 := hfield 0 (by decide)
  rw [Nat.add_zero] at h0
  simp only [phdr, h0, hfield 4 (by decide), hfield 8 (by decide), hfield 16 (by decide),
    hfield 20 (by decide)]

theorem place_frame (h : Phdr) (hv : h.Valid) (ha : ¬ h.Dest a) :
    (place load h r).mem a = r.mem a := by
  have hle := hv.filesz_le
  have hflash := hv.below_flash
  simp only [flashRangeStart] at hflash
  simp only [Phdr.Dest] at ha
  rw [place, zeroLoop_mem (by omega)]
  dsimp only
  rw [if_neg (by omega)]
  exact storeLoop_frame (by omega) (by omega)

theorem place_byte (h : Phdr) (hv : h.Valid) (hj : j < h.filesz) :
    (place load h r).mem (h.vaddr + j) =
      view (copyLoop h.vaddr (load + h.offset) j r).mem (load + h.offset) j := by
  have hle := hv.filesz_le
  have hflash := hv.below_flash
  simp only [flashRangeStart] at hflash
  rw [place, zeroLoop_mem (by omega)]
  dsimp only
  rw [if_neg (by omega)]
  exact storeLoop_byte (by omega) hj

theorem placed_frame (img : Buf) (h : Phdr) (hv : h.Valid) (ha : ¬ h.Dest a) :
    placed img h m a = m a := by
  have hle := hv.filesz_le
  simp only [Phdr.Dest] at ha
  rw [placed, if_neg (by omega), if_neg (by omega)]

theorem placed_byte (img : Buf) (h : Phdr) (hj : j < h.filesz) :
    placed img h m (h.vaddr + j) = img (h.offset + j) := by
  rw [placed, if_pos (by omega), Nat.add_sub_cancel_left]

section Separation

variable {m : Nat → UInt8} {load : Nat} {e : Ehdr}
  (hv : ∀ i, i < e.phnum → (phdr (view m load) e i).Occupies → (phdr (view m load) e i).Valid)
  (hsep : Separated (view m load) e load)

/-- A memory that differs from the original inside destinations only still has the original
header table. -/
theorem Separated.phdr_eq (hsep : Separated (view m load) e load) (hk : k < e.phnum)
    (hm : ∀ a, (∀ i, i < e.phnum → (phdr (view m load) e i).Occupies →
      ¬ (phdr (view m load) e i).Dest a) → m' a = m a) :
    phdr (view m' load) e k = phdr (view m load) e k := by
  apply phdr_congr
  intro t ht
  apply hm
  intro i hi hocc
  exact hsep.table i k t hi hk ht hocc

include hv in
theorem placedUpTo_frame (hn : n ≤ e.phnum)
    (ha : ∀ i, k ≤ i → i < n → (phdr (view m load) e i).Occupies →
      ¬ (phdr (view m load) e i).Dest a) (hk : k ≤ n) :
    placedUpTo (view m load) e m n a = placedUpTo (view m load) e m k a := by
  induction hk with
  | refl => rfl
  | @step n hkn ih =>
    have ih' := ih (by omega) (fun i hki hi => ha i hki (by omega))
    rw [placedUpTo_succ]
    by_cases hocc : (phdr (view m load) e n).Occupies
    · rw [if_pos hocc, placed_frame _ _ (hv n (by omega) hocc)
        (ha n hkn (Nat.lt_succ_self n) hocc)]
      exact ih'
    · rw [if_neg hocc]
      exact ih'

include hv hsep in
/-- With the header table out of reach, pass 2 stores into the original destinations only. -/
theorem pass2_frame (hn : n ≤ e.phnum)
    (ha : ∀ i, k ≤ i → i < n → (phdr (view m load) e i).Occupies →
      ¬ (phdr (view m load) e i).Dest a) (hk : k ≤ n) :
    (pass2 load e n ⟨m, []⟩).mem a = (pass2 load e k ⟨m, []⟩).mem a := by
  induction n generalizing k a with
  | zero =>
    obtain rfl : k = 0 := Nat.le_zero.1 hk
    rfl
  | succ n ih =>
    rcases Nat.lt_or_ge n k with hlt | hge
    · obtain rfl : k = n + 1 := by omega
      rfl
    · have hhdr : phdr (view (pass2 load e n ⟨m, []⟩).mem load) e n =
          phdr (view m load) e n := by
        apply hsep.phdr_eq (by omega)
        intro a' ha'
        have h0 := ih (by omega) (fun i _ hi => ha' i (by omega)) (Nat.zero_le n)
        rwa [pass2_zero] at h0
      have ih' := ih (by omega) (fun i hki hi => ha i hki (by omega)) hge
      rw [pass2_succ, placePhdr_same (.of_eq hhdr)]
      by_cases hocc : (phdr (view m load) e n).Occupies
      · rw [if_pos hocc, place_frame _ (hv n (by omega) hocc)
          (ha n hge (Nat.lt_succ_self n) hocc)]
        exact ih'
      · rw [if_neg hocc]
        exact ih'

include hv hsep in
/-- For a separated image the specified memory can only come about by copying intact bytes:
a wrong byte is never repaired by a later store. -/
theorem Separated.intact
    (hfinal : (pass2 load e e.phnum ⟨m, []⟩).mem = placedUpTo (view m load) e m e.phnum)
    (hn : n ≤ e.phnum) : ∀ i, i < n →
      (phdr (view (placedUpTo (view m load) e m i) load) e i).Same (phdr (view m load) e i) ∧
        ((phdr (view m load) e i).Occupies → ∀ j, j < (phdr (view m load) e i).filesz →
          view (copied (view m load) (phdr (view m load) e i)
            (placedUpTo (view m load) e m i) j) (load + (phdr (view m load) e i).offset) j =
              view m load ((phdr (view m load) e i).offset + j)) := by
  induction n with
  | zero =>
    intro i hi
    exact absurd hi (Nat.not_lt_zero i)
  | succ n ih =>
    have hprev := ih (by omega)
    have hmem := pass2_mem (view m load) m (fun i hi => hv i (by omega)) hprev
    intro i hi
    rcases Nat.lt_succ_iff_lt_or_eq.1 hi with hlt | heq
    · exact hprev i hlt
    · subst heq
      have hhdr : phdr (view (placedUpTo (view m load) e m i) load) e i =
          phdr (view m load) e i := by
        apply hsep.phdr_eq (by omega)
        intro a ha
        have h0 := placedUpTo_frame hv (by omega) (fun i _ hi => ha i (by omega))
          (Nat.zero_le i)
        rwa [placedUpTo] at h0
      refine ⟨.of_eq hhdr, ?_⟩
      intro hocc j
      have hvalid := hv i (by omega) hocc
      have hle := hvalid.filesz_le
      have hflash := hvalid.below_flash
      simp only [flashRangeStart] at hflash
      induction j using Nat.strongRecOn with
      | _ j ihj =>
        intro hj
        -- the byte stored for `j` survives to the end, in the code and in the specification
        have hlast : ∀ k, i + 1 ≤ k → k < e.phnum → (phdr (view m load) e k).Occupies →
            ¬ (phdr (view m load) e k).Dest ((phdr (view m load) e i).vaddr + j) := by
          intro k hik hk hock
          exact hsep.apart i k _ (by omega) hk (by omega) hocc hock ⟨by omega, by omega⟩
        have hcode := pass2_frame hv hsep (Nat.le_refl _) hlast (by omega)
        have hspec := placedUpTo_frame hv (Nat.le_refl _) hlast (by omega)
        have hsame : (phdr (view (pass2 load e i ⟨m, []⟩).mem load) e i).Same
            (phdr (view m load) e i) := by
          rw [hmem]
          exact .of_eq hhdr
        have hsrc : ∀ j', j' < j →
            view (copied (view m load) (phdr (view m load) e i)
              (pass2 load e i ⟨m, []⟩).mem j') (load + (phdr (view m load) e i).offset) j' =
              view m load ((phdr (view m load) e i).offset + j') := by
          rw [hmem]
          exact fun j' hj' => ihj j' hj' (by omega)
        have hcopy := copyLoop_mem (view m load) (phdr (view m load) e i) (by omega) hsrc
        rw [← hfinal, hcode, pass2_succ, placePhdr_same hsame, if_pos hocc,
          place_byte _ hvalid hj, hcopy, hmem, placedUpTo_succ, if_pos hocc,
          placed_byte _ _ hj] at hspec
        exact hspec

end Separation

theorem elf32PpcBeLoad_ok (hok : (elf32PpcBeLoad s load loadlen).ret = .noError) :
    ∃ e hi, validate s.mem load loadlen = .ok (e, hi) ∧
      elf32PpcBeLoad s load loadlen =
        ⟨.noError, none, ⟨(pass2 load e e.phnum ⟨s.mem, []⟩).mem, e.entry, hi⟩,
          (pass2 load e e.phnum ⟨s.mem, []⟩).stored⟩ := by
  rw [elf32PpcBeLoad] at hok ⊢
  cases hval : validate s.mem load loadlen with
  | error d => rw [hval] at hok; cases hok
  | ok res => exact ⟨res.1, res.2, rfl, rfl⟩

/-- An accepted image ends up where its program headers say if no byte is re-read after it
has been overwritten, and for an image with separate destinations only then. -/
theorem elf32PpcBeLoad_places (s : LoadState) (load loadlen : Nat)
    (hok : (elf32PpcBeLoad s load loadlen).ret = .noError) :
    (Intact s load → Placed s (elf32PpcBeLoad s load loadlen).state load) ∧
      (Separated (view s.mem load) (ehdr (view s.mem load)) load →
        (Placed s (elf32PpcBeLoad s load loadlen).state load ↔ Intact s load)) := by
  obtain ⟨e, hi, hval, hres⟩ := elf32PpcBeLoad_ok hok
  obtain ⟨rfl, hv, hhigh⟩ := validate_ok hval
  have himp : Intact s load → Placed s (elf32PpcBeLoad s load loadlen).state load := by
    intro hint
    rw [hres]
    exact ⟨pass2_mem _ _ hv hint, rfl, hhigh⟩
  refine ⟨himp, fun hsep => ⟨fun hplaced => ?_, himp⟩⟩
  rw [hres] at hplaced
  exact hsep.intact hv hplaced.1 (Nat.le_refl _)

/-- A big-endian word of an image file. -/
def word (n : Nat) : List UInt8 :=
  [UInt8.ofNat (n / 2 ^ 24), UInt8.ofNat (n / 2 ^ 16), UInt8.ofNat (n / 2 ^ 8), UInt8.ofNat n]

/-- A PowerPC executable: the ELF header, the program headers and then `data`. -/
def elfFile (entry : Nat) (phs : List Phdr) (data : List UInt8) : List UInt8 :=
  [0x7F, 0x45, 0x4C, 0x46, 1, 2, 1, 0, 0, 0, 0, 0, 0, 0, 0, 0, 0, 2, 0, 20, 0, 0, 0, 1] ++
    word entry ++ word 52 ++ word 0 ++ word 0 ++ [0, 52, 0, 32, 0, UInt8.ofNat phs.length] ++
    List.replicate 6 0 ++
    phs.flatMap (fun h => word h.type ++ word h.offset ++ word h.vaddr ++ word h.vaddr ++
      word h.filesz ++ word h.memsz ++ word 7 ++ word 1) ++ data

def loadedAt (load : Nat) (file : List UInt8) : LoadState :=
  ⟨fun a => if load ≤ a then file.getD (a - load) 0 else 0, 0, 0⟩

/-- One segment, linked well away from the load address. -/
def linkedAway : LoadState := loadedAt machineInitLoad
  (elfFile 0x800000 [⟨1, 84, 0x800000, 1, 2⟩] [0x60])

/-- Two segments, the second linked over the end of the image: over source bytes of the first, which
have been copied by then, and over its own, from below. -/
def linkedNear : LoadState := loadedAt machineInitLoad
  (elfFile 0x800000 [⟨1, 116, 0x800000, 4, 8⟩, ⟨1, 120, 0x400076, 3, 6⟩]
    [0x60, 0x61, 0x62, 0x63, 0x64, 0x65, 0x66])

/-- Two segments, the first linked at the load address. Its zero-fill runs over the program
header of the second. -/
def linkedAtLoad : LoadState := loadedAt machineInitLoad
  (elfFile 0x400000 [⟨1, 116, 0x400000, 1, 100⟩, ⟨1, 117, 0x500000, 1, 1⟩] [0x60, 0x61])

instance (h h' : Phdr) : Decidable (h.Same h') :=
  inferInstanceAs (Decidable ((h.Occupies ↔ h'.Occupies) ∧ (h'.Occupies → h = h')))

instance (s : LoadState) (load : Nat) : Decidable (Intact s load) :=
  inferInstanceAs (Decidable (∀ i, i < (ehdr (view s.mem load)).phnum → _ ∧ _))

theorem elf32PpcBeLoad_places_linkedNear :
    (elf32PpcBeLoad linkedNear machineInitLoad 123).ret = .noError ∧
      Placed linkedNear (elf32PpcBeLoad linkedNear machineInitLoad 123).state machineInitLoad :=
  ⟨by decide +kernel,
    (elf32PpcBeLoad_places linkedNear machineInitLoad 123 (by decide +kernel)).1
      (by decide +kernel)⟩

/-- The second segment of `linkedAtLoad` is never placed. -/
theorem elf32PpcBeLoad_misplaces_linkedAtLoad :
    ¬ ∀ (s : LoadState) (load loadlen : Nat),
      (elf32PpcBeLoad s load loadlen).ret = .noError →
        Placed s (elf32PpcBeLoad s load loadlen).state load := by
  intro h
  have hmem := (h linkedAtLoad machineInitLoad 118 (by decide +kernel)).1
  have hbyte := congrFun hmem 0x500000
  revert hbyte
  decide +kernel

/-- A segment stores to every address of its longer size, whether or not it was validated. -/
theorem mem_place_stored :
    a ∈ (place load h r).stored ↔
      (∃ j, j < max h.filesz h.memsz ∧ a = (h.vaddr + j) % 2 ^ 32) ∨ a ∈ r.stored := by
  rw [place, zeroLoop, mem_storeLoop_stored, copyLoop, mem_storeLoop_stored]
  constructor
  · rintro (⟨j, hj, he⟩ | ⟨j, hj, he⟩ | hr)
    · refine .inl ⟨h.filesz + j, by omega, ?_⟩
      rw [← Nat.add_assoc]
      exact he
    · exact .inl ⟨j, by omega, he⟩
    · exact .inr hr
  · rintro (⟨j, hj, he⟩ | hr)
    · rcases Nat.lt_or_ge j h.filesz with hlt | hge
      · exact .inr (.inl ⟨j, hlt, he⟩)
      · refine .inl ⟨j - h.filesz, by omega, ?_⟩
        rw [Nat.add_assoc, Nat.add_sub_cancel' hge]
        exact he
    · exact .inr (.inr hr)

/-- The header that pass 2 reads in step `i`, from the memory as the earlier steps left it. -/
def reread (s : LoadState) (load : Nat) (i : Nat) : Phdr :=
  let e := ehdr (view s.mem load)
  phdr (view (pass2 load e i ⟨s.mem, []⟩).mem load) e i

theorem mem_pass2_stored (n : Nat) :
    a ∈ (pass2 load (ehdr (view s.mem load)) n ⟨s.mem, []⟩).stored ↔
      ∃ i, i < n ∧ (reread s load i).Occupies ∧
        ∃ j, j < max (reread s load i).filesz (reread s load i).memsz ∧
          a = ((reread s load i).vaddr + j) % 2 ^ 32 := by
  induction n with
  | zero => simp [pass2]
  | succ n ih =>
    have hstep : a ∈ (pass2 load (ehdr (view s.mem load)) (n + 1) ⟨s.mem, []⟩).stored ↔
        ((reread s load n).Occupies ∧
          ∃ j, j < max (reread s load n).filesz (reread s load n).memsz ∧
            a = ((reread s load n).vaddr + j) % 2 ^ 32) ∨
          a ∈ (pass2 load (ehdr (view s.mem load)) n ⟨s.mem, []⟩).stored := by
      rw [pass2_succ, placePhdr_same (.of_eq (rfl : _ = reread s load n))]
      by_cases hocc : (reread s load n).Occupies
      · rw [if_pos hocc, mem_place_stored]
        simp only [hocc, true_and]
      · rw [if_neg hocc]
        exact ⟨.inr, fun h => h.resolve_left fun h' => hocc h'.1⟩
    rw [hstep, ih]
    constructor
    · rintro (⟨hocc, hj⟩ | ⟨i, hi, hrest⟩)
      · exact ⟨n, Nat.lt_succ_self n, hocc, hj⟩
      · exact ⟨i, by omega, hrest⟩
    · rintro ⟨i, hi, hrest⟩
      rcases Nat.lt_succ_iff_lt_or_eq.1 hi with hlt | heq
      · exact .inr ⟨i, hlt, hrest⟩
      · subst heq
        exact .inl hrest

/-- The address lies in a destination that pass 1 validated for this image. -/
def Validated (s : LoadState) (load a : Nat) : Prop :=
  let img := view s.mem load
  let e := ehdr img
  ∃ i, i < e.phnum ∧ (phdr img e i).Occupies ∧ (phdr img e i).Dest a

/-- Every store goes to a validated destination, and none into the flash range. -/
def Confined (s : LoadState) (load : Nat) (stores : List Nat) : Prop :=
  ∀ a, a ∈ stores → Validated s load a ∧ a < flashRangeStart

/-- The header a step finds in memory describes only addresses that pass 1 validated. -/
def StepInside (s : LoadState) (load i : Nat) : Prop :=
  (reread s load i).Occupies →
    ∀ j, j < max (reread s load i).filesz (reread s load i).memsz →
      Validated s load (((reread s load i).vaddr + j) % 2 ^ 32)

/-- Pass 2 keeps to the validated destinations exactly when each step finds a header that
does; this holds in particular when each step finds the header that pass 1 saw. -/
theorem elf32PpcBeLoad_confined (s : LoadState) (load loadlen : Nat)
    (hok : (elf32PpcBeLoad s load loadlen).ret = .noError) :
    (Confined s load (elf32PpcBeLoad s load loadlen).stores ↔
      ∀ i, i < (ehdr (view s.mem load)).phnum → StepInside s load i) ∧
    ((∀ i, i < (ehdr (view s.mem load)).phnum →
        (reread s load i).Same (phdr (view s.mem load) (ehdr (view s.mem load)) i)) →
      Confined s load (elf32PpcBeLoad s load loadlen).stores) := by
  obtain ⟨e, hi, hval, hres⟩ := elf32PpcBeLoad_ok hok
  obtain ⟨rfl, hv, -⟩ := validate_ok hval
  have hflash : ∀ a, Validated s load a → a < flashRangeStart := by
    rintro a ⟨i, hi, hocc, hdest⟩
    exact Nat.lt_of_lt_of_le hdest.2 (hv i hi hocc).below_flash
  have hiff : Confined s load (elf32PpcBeLoad s load loadlen).stores ↔
      ∀ i, i < (ehdr (view s.mem load)).phnum → StepInside s load i := by
    rw [hres]
    constructor
    · intro hconf i hi hocc j hj
      exact (hconf _ ((mem_pass2_stored _).2 ⟨i, hi, hocc, j, hj, rfl⟩)).1
    · intro hstep a ha
      obtain ⟨i, hi, hocc, j, hj, rfl⟩ := (mem_pass2_stored _).1 ha
      exact ⟨hstep i hi hocc j hj, hflash _ (hstep i hi hocc j hj)⟩
  refine ⟨hiff, fun hsame => hiff.2 ?_⟩
  intro i hi hocc j hj
  have hocc' := (hsame i hi).1.1 hocc
  rw [(hsame i hi).2 hocc'] at hj ⊢
  have hvalid := hv i hi hocc'
  have hle := hvalid.filesz_le
  have hbelow := hvalid.below_flash
  rw [Nat.max_eq_right hle] at hj
  simp only [flashRangeStart] at hbelow
  refine ⟨i, hi, hocc', ?_, ?_⟩
  · rw [Nat.mod_eq_of_lt (by omega)]
    exact Nat.le_add_right _ _
  · rw [Nat.mod_eq_of_lt (by omega)]
    exact Nat.add_lt_add_left hj _

theorem elf32PpcBeLoad_confined_linkedNear :
    (elf32PpcBeLoad linkedNear machineInitLoad 123).ret = .noError ∧
      Confined linkedNear machineInitLoad
        (elf32PpcBeLoad linkedNear machineInitLoad 123).stores :=
  ⟨by decide +kernel,
    (elf32PpcBeLoad_confined linkedNear machineInitLoad 123 (by decide +kernel)).2
      (by decide +kernel)⟩

/-- Two segments whose first is linked over the program header of the second and carries
another header for it, with the flash as its destination. -/
def forgedHeader : LoadState := loadedAt machineInitLoad
  (elfFile 0x400054 [⟨1, 116, 0x400054, 32, 32⟩, ⟨1, 148, 0x500000, 1, 1⟩]
    (word 1 ++ word 148 ++ word 0xFFF00000 ++ word 0xFFF00000 ++ word 1 ++ word 1 ++ word 7 ++
      word 1 ++ [0x60]))

/-- Loading `forgedHeader` stores into the flash. -/
theorem elf32PpcBeLoad_escapes_forgedHeader :
    ¬ ∀ (s : LoadState) (load loadlen : Nat),
      (elf32PpcBeLoad s load loadlen).ret = .noError →
        Confined s load (elf32PpcBeLoad s load loadlen).stores := by
  intro h
  have hconf := h forgedHeader machineInitLoad 149 (by decide +kernel)
  have hflash := (hconf 0xFFF00000 (by decide +kernel)).2
  revert hflash
  decide +kernel

end Pegasos2.BootKernel
