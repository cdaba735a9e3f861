import Pegasos2.BootPlacement

namespace Pegasos2.BootKernel
set_option autoImplicit true

/-- The image is a 32-bit big-endian executable or shared object for the PowerPC. -/
structure Identified (img : Buf) : Prop where
  magic : img 0 = 0x7F ∧ img 1 = 0x45 ∧ img 2 = 0x4C ∧ img 3 = 0x46
  class32 : img 4 = 1
  msb : img 5 = 2
  version : img 6 = 1
  type : be16 img 16 = 2 ∨ be16 img 16 = 3
  machine : be16 img 18 = 20

/-- The header describes a table of program headers. -/
structure Ehdr.HasTable (e : Ehdr) : Prop where
  phoff : e.phoff ≠ 0
  phnum : e.phnum ≠ 0
  phentsz : minPhentsz ≤ e.phentsz ∧ e.phentsz ≤ maxPhentsz
  few : e.phnum ≤ maxPhnum
  fits : e.phoff + e.phnum * e.phentsz < 2 ^ 32

/-- The entry point is in a destination of the first `n` program headers. -/
def EntryIn (img : Buf) (e : Ehdr) (n : Nat) : Prop :=
  ∃ i < n, (phdr img e i).Occupies ∧ (phdr img e i).Dest e.entry

/-- An image that can be placed. -/
structure Acceptable (img : Buf) : Prop where
  identified : Identified img
  table : (ehdr img).HasTable
  valid : ∀ i < (ehdr img).phnum, (phdr img (ehdr img) i).Occupies →
    (phdr img (ehdr img) i).Valid
  entry : EntryIn img (ehdr img) (ehdr img).phnum

theorem elf32PpcBeIsExec_iff (m : Nat → UInt8) (load loadlen : Nat) :
    elf32PpcBeIsExec m load loadlen = true ↔
      load ≠ 0 ∧ 32 ≤ loadlen ∧ Identified (view m load) := by
  rw [elf32PpcBeIsExec]
  constructor
  · intro h
    split_ifs at h with hload hmagic hclass hmsb hversion htype hmachine
    obtain ⟨hload, hlen⟩ := not_or.1 hload
    refine ⟨hload, Nat.not_lt.1 hlen, ?_, not_not.1 hclass, not_not.1 hmsb, not_not.1 hversion, ?_,
      not_not.1 hmachine⟩
    · rwa [not_or, not_or, not_or, not_not, not_not, not_not, not_not] at hmagic
    · rwa [not_and_or, not_not, not_not] at htype
  · rintro ⟨hload, hlen, h⟩
    have hnull : ¬ (load = 0 ∨ loadlen < 32) := not_or.2 ⟨hload, Nat.not_lt.2 hlen⟩
    have hmagic : ¬ (view m load 0 ≠ 0x7F ∨ view m load 1 ≠ 0x45 ∨ view m load 2 ≠ 0x4C ∨
        view m load 3 ≠ 0x46) := by
      rw [not_or, not_or, not_or, not_not, not_not, not_not, not_not]
      exact h.magic
    have htype : ¬ (be16 (view m load) 16 ≠ 2 ∧ be16 (view m load) 16 ≠ 3) := by
      rw [not_and_or, not_not, not_not]
      exact h.type
    rw [if_neg hnull, if_neg hmagic, if_neg (not_not.2 h.class32), if_neg (not_not.2 h.msb),
      if_neg (not_not.2 h.version), if_neg htype, if_neg (not_not.2 h.machine)]

theorem u32AddOvf_eq_true_iff (ha : a < 2 ^ 32) (hb : b < 2 ^ 32) :
    (u32AddOvf a b).2 = true ↔ 2 ^ 32 ≤ a + b := by
  simp only [u32AddOvf, decide_eq_true_eq]
  omega

theorem checkPhdr_skip (h : ¬ (phdr eh e i).Occupies) : checkPhdr eh e acc i = .ok acc := by
  rw [checkPhdr, Phdr.check]
  dsimp only
  split_ifs with htype hmemsz
  · rfl
  · rfl
  all_goals exact absurd ⟨not_not.1 htype, hmemsz⟩ h

instance (h : Phdr) (a : Nat) : Decidable (h.Dest a) := inferInstanceAs (Decidable (_ ∧ _))

/-- A valid entry passes, and its destination may be that of the entry point. -/
theorem checkPhdr_valid (acc : Bool × Nat) (hocc : (phdr eh e i).Occupies)
    (hv : (phdr eh e i).Valid) :
    ∃ hi, checkPhdr eh e acc i =
      .ok (if (phdr eh e i).Dest e.entry then true else acc.1, hi) := by
  obtain ⟨ho, hvaddr, hf, hm⟩ := phdr_lt eh e i
  have hbelow := hv.below_flash
  rw [flashRangeStart] at hbelow
  have hend : (phdr eh e i).vaddr + (phdr eh e i).memsz < 2 ^ 32 := by omega
  have hpos := Nat.pos_of_ne_zero hocc.2
  have hsource : ¬ (u32AddOvf (phdr eh e i).offset (phdr eh e i).filesz).2 = true := by
    rw [u32AddOvf_eq_true_iff ho hf]
    exact Nat.not_le.2 hv.source_lt
  have hdest : ¬ (u32AddOvf (phdr eh e i).vaddr (phdr eh e i).memsz).2 = true := by
    rw [u32AddOvf_eq_true_iff hvaddr hm]
    exact Nat.not_le.2 hend
  have hsum := (u32AddOvf_eq_false hvaddr hm (Bool.eq_false_iff.2 hdest)).2
  have hflash : ¬ ((phdr eh e i).vaddr ≥ flashRangeStart ∨
      (u32AddOvf (phdr eh e i).vaddr (phdr eh e i).memsz).1 > flashRangeStart) := by
    rw [hsum, flashRangeStart]
    omega
  rw [checkPhdr, Phdr.check]
  dsimp only
  rw [if_neg (not_not.2 hocc.1), if_neg hocc.2, if_neg (Nat.not_lt.2 hv.filesz_le), if_neg hsource,
    if_neg hdest, if_neg hflash, hsum]
  exact ⟨_, rfl⟩

/-- Pass 1 accepts the entries that are all valid, and finds the destination of the entry point. -/
theorem pass1_valid (h : ∀ i < n, (phdr eh e i).Occupies → (phdr eh e i).Valid) :
    ∃ acc, pass1 eh e n = .ok acc ∧ (acc.1 = true ↔ EntryIn eh e n) := by
  induction n with
  | zero =>
    refine ⟨_, rfl, fun h => absurd h Bool.false_ne_true, ?_⟩
    rintro ⟨i, hi, -⟩
    exact absurd hi (Nat.not_lt_zero i)
  | succ n ih =>
    obtain ⟨acc, hpass, hentry⟩ := ih fun i hi => h i (Nat.lt_succ_of_lt hi)
    have hstep {acc'} (hcheck : checkPhdr eh e acc n = .ok acc') :
        pass1 eh e (n + 1) = .ok acc' := by
      rw [pass1]
      exact except_bind_ok.2 ⟨acc, hpass, hcheck⟩
    have hsplit : EntryIn eh e (n + 1) ↔
        EntryIn eh e n ∨ (phdr eh e n).Occupies ∧ (phdr eh e n).Dest e.entry := by
      constructor
      · rintro ⟨i, hi, hin⟩
        obtain hlt | rfl := Nat.lt_succ_iff_lt_or_eq.1 hi
        · exact .inl ⟨i, hlt, hin⟩
        · exact .inr hin
      · rintro (⟨i, hi, hin⟩ | hin)
        · exact ⟨i, Nat.lt_succ_of_lt hi, hin⟩
        · exact ⟨n, Nat.lt_succ_self n, hin⟩
    rw [hsplit]
    by_cases hocc : (phdr eh e n).Occupies
    · obtain ⟨hi, hcheck⟩ := checkPhdr_valid acc hocc (h n (Nat.lt_succ_self n) hocc)
      refine ⟨_, hstep hcheck, ?_⟩
      dsimp only
      split_ifs with hdest
      · exact ⟨fun _ => .inr ⟨hocc, hdest⟩, fun _ => rfl⟩
      · rw [hentry]
        exact ⟨.inl, fun h => h.resolve_right fun hin => hdest hin.2⟩
    · refine ⟨acc, hstep (checkPhdr_skip hocc), ?_⟩
      rw [hentry]
      exact ⟨.inl, fun h => h.resolve_right fun hin => hocc hin.1⟩

theorem ehdr_lt (img : Buf) : (ehdr img).phoff < 2 ^ 32 := be32_lt img 28

/-- The checks of the header, as far as its table of program headers is concerned. -/
theorem Ehdr.hasTable_iff (img : Buf) :
    (ehdr img).HasTable ↔ ¬ ((ehdr img).phoff = 0 ∨ (ehdr img).phnum = 0) ∧
      ¬ ((ehdr img).phentsz < minPhentsz ∨ (ehdr img).phentsz > maxPhentsz) ∧
      ¬ (ehdr img).phnum > maxPhnum ∧
      ¬ (u32AddOvf (ehdr img).phoff ((ehdr img).phnum * (ehdr img).phentsz)).2 = true := by
  have hoff := ehdr_lt img
  constructor
  · intro h
    have hspan : (ehdr img).phnum * (ehdr img).phentsz < 2 ^ 32 :=
      Nat.lt_of_le_of_lt (Nat.le_add_left _ _) h.fits
    rw [u32AddOvf_eq_true_iff hoff hspan]
    exact ⟨not_or.2 ⟨h.phoff, h.phnum⟩,
      not_or.2 ⟨Nat.not_lt.2 h.phentsz.1, Nat.not_lt.2 h.phentsz.2⟩, Nat.not_lt.2 h.few,
      Nat.not_le.2 h.fits⟩
  · rintro ⟨hsome, hsize, hfew, hovf⟩
    obtain ⟨hphoff, hphnum⟩ := not_or.1 hsome
    obtain ⟨hmin, hmax⟩ := not_or.1 hsize
    have hspan : (ehdr img).phnum * (ehdr img).phentsz ≤ maxPhnum * maxPhentsz :=
      Nat.mul_le_mul (Nat.not_lt.1 hfew) (Nat.not_lt.1 hmax)
    rw [u32AddOvf_eq_true_iff hoff (Nat.lt_of_le_of_lt hspan (by decide))] at hovf
    exact ⟨hphoff, hphnum, ⟨Nat.not_lt.1 hmin, Nat.not_lt.1 hmax⟩, Nat.not_lt.1 hfew,
      Nat.not_le.1 hovf⟩

theorem validate_ok_iff (m : Nat → UInt8) (load loadlen : Nat) :
    (∃ x, validate m load loadlen = .ok x) ↔
      load ≠ 0 ∧ 32 ≤ loadlen ∧ Acceptable (view m load) := by
  constructor
  · rintro ⟨⟨e, hi⟩, h⟩
    obtain ⟨-, hvalid, -⟩ := validate_ok h
    rw [validate] at h
    split_ifs at h with hexec hsome hsize hfew hovf
    obtain ⟨hload, hlen, hident⟩ := (elf32PpcBeIsExec_iff m load loadlen).1
      (eq_true_of_ne_false hexec)
    have htable := (Ehdr.hasTable_iff (view m load)).2 ⟨hsome, hsize, hfew, hovf⟩
    obtain ⟨acc, hpass, h⟩ := except_bind_ok.1 h
    split_ifs at h with hin
    obtain ⟨rfl, -⟩ := Prod.mk.inj (Except.ok.inj h)
    obtain ⟨acc', hpass', hentry⟩ := pass1_valid hvalid
    obtain rfl := Except.ok.inj (hpass.symm.trans hpass')
    exact ⟨hload, hlen, hident, htable, hvalid, hentry.1 (eq_true_of_ne_false hin)⟩
  · rintro ⟨hload, hlen, h⟩
    have hexec : ¬ elf32PpcBeIsExec m load loadlen = false := by
      rw [(elf32PpcBeIsExec_iff m load loadlen).2 ⟨hload, hlen, h.identified⟩]
      exact Bool.noConfusion
    obtain ⟨hsome, hsize, hfew, hovf⟩ := (Ehdr.hasTable_iff (view m load)).1 h.table
    obtain ⟨acc, hpass, hentry⟩ := pass1_valid h.valid
    have hin : ¬ acc.1 = false := by
      rw [hentry.2 h.entry]
      exact Bool.noConfusion
    refine ⟨(ehdr (view m load), acc.2), ?_⟩
    rw [validate]
    rw [if_neg hexec, if_neg hsome, if_neg hsize, if_neg hfew, if_neg hovf, hpass]
    exact if_neg hin

/-- An image is loaded just if it is acceptable. An image that is refused changes nothing. -/
theorem elf32PpcBeLoad_accepts_iff (s : LoadState) (load loadlen : Nat) (hload : load ≠ 0)
    (hlen : 52 ≤ loadlen) :
    ((elf32PpcBeLoad s load loadlen).ret = .noError ↔ Acceptable (view s.mem load)) ∧
      (¬ Acceptable (view s.mem load) → (elf32PpcBeLoad s load loadlen).ret = .eBadImage ∧
        (elf32PpcBeLoad s load loadlen).state = s ∧
          (elf32PpcBeLoad s load loadlen).stores = []) := by
  have hiff := validate_ok_iff s.mem load loadlen
  rw [elf32PpcBeLoad]
  cases hval : validate s.mem load loadlen with
  | error d =>
    have hnot : ¬ Acceptable (view s.mem load) := by
      intro h
      obtain ⟨x, hx⟩ := hiff.2 ⟨hload, Nat.le_trans (by decide) hlen, h⟩
      rw [hval] at hx
      cases hx
    exact ⟨⟨fun h => Retcode.noConfusion h, fun h => absurd h hnot⟩, fun _ => ⟨rfl, rfl, rfl⟩⟩
  | ok x =>
    have hacc : Acceptable (view s.mem load) := (hiff.1 ⟨x, hval⟩).2.2
    exact ⟨⟨fun _ => hacc, fun _ => rfl⟩, fun h => absurd hacc h⟩

theorem elf32PpcBeLoad_accepts_linkedAway :
    Acceptable (view linkedAway.mem machineInitLoad) :=
  (elf32PpcBeLoad_accepts_iff linkedAway machineInitLoad 85 (by decide) (by decide)).1.1
    (by decide +kernel)

end Pegasos2.BootKernel
