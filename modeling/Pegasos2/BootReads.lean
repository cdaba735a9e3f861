import Pegasos2.BootTrace

namespace Pegasos2.BootKernel
set_option autoImplicit true

/-- The byte at the offset `k` is one of the `loadlen` bytes at `load`. -/
def InImage (load loadlen k : Nat) : Prop :=
  ∃ j < loadlen, (load + k) % 2 ^ 32 = (load + j) % 2 ^ 32

/-- The header, the table or a segment extends past the end of the image. -/
def Overruns (img : Buf) (loadlen : Nat) : Prop :=
  loadlen < 52 ∨ loadlen < (ehdr img).phoff + (ehdr img).phnum * (ehdr img).phentsz ∨
    ∃ i < (ehdr img).phnum, (phdr img (ehdr img) i).type = 1 ∧
      loadlen < (phdr img (ehdr img) i).offset + (phdr img (ehdr img) i).filesz

/-- The loader stays inside the image. -/
structure StaysInside (s : LoadState) (load loadlen : Nat) : Prop where
  reads : ∀ k ∈ loaderReads s load loadlen, InImage load loadlen k
  rejects : Overruns (view s.mem load) loadlen → (elf32PpcBeLoad s load loadlen).ret = .eBadImage

theorem inImage_iff : InImage load loadlen k ↔ k % 2 ^ 32 < loadlen := by
  constructor
  · rintro ⟨j, hj, heq⟩
    have hmod : k % 2 ^ 32 = j % 2 ^ 32 := by omega
    exact hmod ▸ Nat.lt_of_le_of_lt (Nat.mod_le _ _) hj
  · intro h
    exact ⟨k % 2 ^ 32, h, (Nat.add_mod_mod _ _ _).symm⟩

theorem InImage.of_lt (h : k < loadlen) : InImage load loadlen k := ⟨k, h, rfl⟩

theorem execReads_inside (hk : k ∈ execReads eh load loadlen) : InImage load loadlen k := by
  rw [execReads] at hk
  by_cases hnull : load = 0 ∨ loadlen < 32
  · rw [if_pos hnull] at hk
    cases hk
  · rw [if_neg hnull] at hk
    apply InImage.of_lt
    have hlt : k < 20 := by
      split_ifs at hk <;> simp only [List.mem_cons, List.not_mem_nil, or_false] at hk <;> omega
    exact Nat.lt_of_lt_of_le (Nat.lt_trans hlt (by decide)) (Nat.not_lt.1 (not_or.1 hnull).2)

theorem headerReads_inside_iff :
    (∀ k ∈ headerReads, InImage load loadlen k) ↔ 46 ≤ loadlen := by
  constructor
  · intro h
    have hlast := inImage_iff.1 (h 45 (by decide))
    exact hlast
  · intro h k hk
    have hall : headerReads.all (· < 46) = true := by decide
    have hlt : k < 46 := of_decide_eq_true (List.all_eq_true.1 hall k hk)
    exact .of_lt (Nat.lt_of_lt_of_le hlt h)

/-- The fields of a program header are read up to its twenty-fourth byte. -/
theorem phdrReads_inside_iff (load : Nat) (hfits : ph + 24 ≤ 2 ^ 32) :
    (∀ k ∈ phdrReads ph, InImage load loadlen k) ↔ ph + 24 ≤ loadlen := by
  constructor
  · intro h
    have hmem : ph + 23 ∈ phdrReads ph := by
      rw [phdrReads]
      exact List.mem_append_right _ (List.mem_range'_1.2 ⟨by omega, by omega⟩)
    have hlast := inImage_iff.1 (h _ hmem)
    rw [Nat.mod_eq_of_lt hfits] at hlast
    exact hlast
  · intro h k hk
    rw [phdrReads] at hk
    have hlt : k < ph + 24 := by
      obtain hk | hk := List.mem_append.1 hk
      · have := List.mem_range'_1.1 hk
        omega
      · have := List.mem_range'_1.1 hk
        omega
    exact .of_lt (Nat.lt_of_lt_of_le hlt h)

/-- Program header `n` of a table is inside of the addresses that an offset can have. -/
theorem Ehdr.HasTable.phdr_le {e : Ehdr} (h : e.HasTable) (hn : n < e.phnum) :
    e.phoff + n * e.phentsz + 24 ≤ 2 ^ 32 := by
  have hfits := h.fits
  have hsize : 24 ≤ e.phentsz := Nat.le_trans (by decide) h.phentsz.1
  have hstep : n * e.phentsz + e.phentsz ≤ e.phnum * e.phentsz := by
    rw [← Nat.succ_mul]
    exact Nat.mul_le_mul_right _ hn
  omega

/-- The entries in front of entry `n` are valid, as far as they are not skipped. -/
def ValidUpTo (img : Buf) (n : Nat) : Prop :=
  ∀ i < n, (phdr img (ehdr img) i).Occupies → (phdr img (ehdr img) i).Valid

theorem pass1_ok_iff : (∃ acc, pass1 img (ehdr img) n = .ok acc) ↔ ValidUpTo img n := by
  constructor
  · rintro ⟨acc, h⟩
    exact (pass1_ok h).1
  · intro h
    obtain ⟨acc, hpass, -⟩ := pass1_valid h
    exact ⟨acc, hpass⟩

theorem mem_pass1Reads : k ∈ pass1Reads img (ehdr img) n ↔
    ∃ i < n, ValidUpTo img i ∧ k ∈ phdrReads ((ehdr img).phoff + i * (ehdr img).phentsz) := by
  induction n with
  | zero =>
    constructor
    · intro h
      cases h
    · rintro ⟨i, hi, -⟩
      exact absurd hi (Nat.not_lt_zero i)
  | succ n ih =>
    have hsplit : (∃ i < n + 1, ValidUpTo img i ∧
        k ∈ phdrReads ((ehdr img).phoff + i * (ehdr img).phentsz)) ↔
        (∃ i < n, ValidUpTo img i ∧
          k ∈ phdrReads ((ehdr img).phoff + i * (ehdr img).phentsz)) ∨
          ValidUpTo img n ∧ k ∈ phdrReads ((ehdr img).phoff + n * (ehdr img).phentsz) := by
      constructor
      · rintro ⟨i, hi, h⟩
        obtain hlt | rfl := Nat.lt_succ_iff_lt_or_eq.1 hi
        · exact .inl ⟨i, hlt, h⟩
        · exact .inr h
      · rintro (⟨i, hi, h⟩ | h)
        · exact ⟨i, Nat.lt_succ_of_lt hi, h⟩
        · exact ⟨n, Nat.lt_succ_self n, h⟩
    rw [hsplit, ← ih, ← pass1_ok_iff, pass1Reads]
    cases hpass : pass1 img (ehdr img) n with
    | error d =>
      constructor
      · exact .inl
      · rintro (h | ⟨⟨acc, h⟩, -⟩)
        · exact h
        · cases h
    | ok acc =>
      rw [List.mem_append]
      constructor
      · exact .imp_right fun h => ⟨⟨acc, rfl⟩, h⟩
      · exact .imp_right And.right

/-- Pass 2 reads the headers again, and the source bytes of those that it finds. -/
theorem mem_pass2Reads : k ∈ pass2Reads load (ehdr (view s.mem load)) ⟨s.mem, []⟩ n ↔
    ∃ i < n, k ∈ phdrReads ((ehdr (view s.mem load)).phoff + i * (ehdr (view s.mem load)).phentsz) ∨
      (reread s load i).Occupies ∧ (reread s load i).offset ≤ k ∧
        k < (reread s load i).offset + (reread s load i).filesz := by
  have hsource (i : Nat) : k ∈ sourceReads (reread s load i) ↔ (reread s load i).Occupies ∧
      (reread s load i).offset ≤ k ∧ k < (reread s load i).offset + (reread s load i).filesz := by
    rw [sourceReads]
    split_ifs with hocc
    · rw [List.mem_range'_1, and_iff_right hocc]
    · exact ⟨fun h => absurd h List.not_mem_nil, fun h => absurd h.1 hocc⟩
  induction n with
  | zero =>
    constructor
    · intro h
      cases h
    · rintro ⟨i, hi, -⟩
      exact absurd hi (Nat.not_lt_zero i)
  | succ n ih =>
    have hlast := hsource n
    rw [reread] at hlast
    rw [pass2Reads, List.mem_append, List.mem_append, hlast, or_assoc]
    apply (or_congr_left ih).trans
    constructor
    · rintro (⟨i, hi, h⟩ | h)
      · exact ⟨i, Nat.lt_succ_of_lt hi, h⟩
      · exact ⟨n, Nat.lt_succ_self n, h⟩
    · rintro ⟨i, hi, h⟩
      obtain hlt | rfl := Nat.lt_succ_iff_lt_or_eq.1 hi
      · exact .inl ⟨i, hlt, h⟩
      · exact .inr h

/-- The source bytes that step `i` of pass 2 copies are inside of the image. -/
def SourceInside (s : LoadState) (load loadlen i : Nat) : Prop :=
  (reread s load i).Occupies → ∀ k, (reread s load i).offset ≤ k →
    k < (reread s load i).offset + (reread s load i).filesz → InImage load loadlen k

/-- The entries that pass 1 reads are inside of the image. -/
def EntriesInside (img : Buf) (loadlen : Nat) : Prop :=
  ∀ n < (ehdr img).phnum, ValidUpTo img n →
    (ehdr img).phoff + n * (ehdr img).phentsz + 24 ≤ loadlen

/-- What is looked at of an image with the right identification, until it is refused or has been
placed, is inside of it. -/
def Contained (s : LoadState) (load loadlen : Nat) : Prop :=
  let img := view s.mem load
  46 ≤ loadlen ∧ ((ehdr img).HasTable → EntriesInside img loadlen ∧ (Acceptable img →
    ¬ Overruns img loadlen ∧ ∀ i < (ehdr img).phnum, SourceInside s load loadlen i))

theorem elf32PpcBeLoad_refuses_iff (s : LoadState) (load loadlen : Nat) :
    (elf32PpcBeLoad s load loadlen).ret = .eBadImage ↔
      ¬ (load ≠ 0 ∧ 32 ≤ loadlen ∧ Acceptable (view s.mem load)) := by
  rw [← validate_ok_iff, elf32PpcBeLoad]
  cases hval : validate s.mem load loadlen with
  | error d =>
    constructor
    · rintro _ ⟨x, hx⟩
      cases hx
    · intro _
      rfl
  | ok x =>
    constructor
    · intro h
      cases h
    · intro h
      exact absurd ⟨x, rfl⟩ h

theorem mem_imageReads (hexec : elf32PpcBeIsExec s.mem load loadlen = true) :
    k ∈ imageReads s load loadlen ↔ k ∈ execReads (view s.mem load) load loadlen ∨
      k ∈ headerReads ∨ (ehdr (view s.mem load)).HasTable ∧
        (k ∈ pass1Reads (view s.mem load) (ehdr (view s.mem load)) (ehdr (view s.mem load)).phnum ∨
          Acceptable (view s.mem load) ∧
            k ∈ pass2Reads load (ehdr (view s.mem load)) ⟨s.mem, []⟩
              (ehdr (view s.mem load)).phnum) := by
  obtain ⟨hload, hlen, -⟩ := (elf32PpcBeIsExec_iff s.mem load loadlen).1 hexec
  have hval := validate_ok_iff s.mem load loadlen
  rw [imageReads, if_pos hexec, List.mem_append, List.mem_append]
  apply or_congr_right
  apply or_congr_right
  split_ifs with htable
  · rw [tableReads, and_iff_right htable, List.mem_append]
    apply or_congr_right
    cases hv : validate s.mem load loadlen with
    | error d =>
      have hnot : ¬ Acceptable (view s.mem load) := by
        intro h
        obtain ⟨x, hx⟩ := hval.2 ⟨hload, hlen, h⟩
        rw [hv] at hx
        cases hx
      exact ⟨fun h => absurd h List.not_mem_nil, fun h => absurd h.1 hnot⟩
    | ok x =>
      rw [and_iff_right (hval.1 ⟨x, hv⟩).2.2]
  · exact ⟨fun h => absurd h List.not_mem_nil, fun h => absurd h.1 htable⟩

theorem pass1Reads_inside_iff (htable : (ehdr img).HasTable) :
    (∀ k ∈ pass1Reads img (ehdr img) (ehdr img).phnum, InImage load loadlen k) ↔
      EntriesInside img loadlen := by
  constructor
  · intro h n hn hvalid
    apply (phdrReads_inside_iff load (htable.phdr_le hn)).1
    exact fun k hk => h k (mem_pass1Reads.2 ⟨n, hn, hvalid, hk⟩)
  · intro h k hk
    obtain ⟨n, hn, hvalid, hk⟩ := mem_pass1Reads.1 hk
    exact (phdrReads_inside_iff load (htable.phdr_le hn)).2 (h n hn hvalid) k hk

theorem pass2Reads_inside_iff (hacc : Acceptable (view s.mem load))
    (hentries : EntriesInside (view s.mem load) loadlen) :
    (∀ k ∈ pass2Reads load (ehdr (view s.mem load)) ⟨s.mem, []⟩ (ehdr (view s.mem load)).phnum,
      InImage load loadlen k) ↔
      ∀ i < (ehdr (view s.mem load)).phnum, SourceInside s load loadlen i := by
  constructor
  · intro h i hi hocc k hle hlt
    exact h k (mem_pass2Reads.2 ⟨i, hi, .inr ⟨hocc, hle, hlt⟩⟩)
  · intro h k hk
    obtain ⟨i, hi, hk | ⟨hocc, hle, hlt⟩⟩ := mem_pass2Reads.1 hk
    · have hvalid : ValidUpTo (view s.mem load) i := fun j hj => hacc.valid j (Nat.lt_trans hj hi)
      exact (phdrReads_inside_iff load (hacc.table.phdr_le hi)).2 (hentries i hi hvalid) k hk
    · exact h i hi hocc k hle hlt

/-- The loader stays inside of the image just if the image is refused at once, or all that is
looked at until it is refused or placed is inside. -/
theorem elf32PpcBeLoad_staysInside_iff (s : LoadState) (load loadlen : Nat) :
    StaysInside s load loadlen ↔ load = 0 ∨ loadlen < 32 ∨ ¬ Identified (view s.mem load) ∨
      Contained s load loadlen := by
  have hexec := elf32PpcBeIsExec_iff s.mem load loadlen
  by_cases hid : elf32PpcBeIsExec s.mem load loadlen = true
  · obtain ⟨hload, hlen, hident⟩ := hexec.1 hid
    have hrefuses : (elf32PpcBeLoad s load loadlen).ret = .eBadImage ↔
        ¬ Acceptable (view s.mem load) := by
      rw [elf32PpcBeLoad_refuses_iff, and_iff_right hload, and_iff_right hlen]
    constructor
    · intro h
      have hread := fun k hk => h.reads k (by
        rw [loaderReads_eq]
        exact (mem_imageReads hid).2 hk)
      refine .inr (.inr (.inr ⟨headerReads_inside_iff.1 fun k hk => hread k (.inr (.inl hk)),
        fun htable => ?_⟩))
      have hentries := (pass1Reads_inside_iff htable).1 fun k hk =>
        hread k (.inr (.inr ⟨htable, .inl hk⟩))
      refine ⟨hentries, fun hacc => ⟨fun hover => hrefuses.1 (h.rejects hover) hacc, ?_⟩⟩
      exact (pass2Reads_inside_iff hacc hentries).1 fun k hk =>
        hread k (.inr (.inr ⟨htable, .inr ⟨hacc, hk⟩⟩))
    · intro h
      have hin : Contained s load loadlen := by
        obtain h | h | h | h := h
        · exact absurd h hload
        · exact absurd hlen (Nat.not_le.2 h)
        · exact absurd hident h
        · exact h
      obtain ⟨hhead, hrest⟩ := hin
      constructor
      · intro k hk
        rw [loaderReads_eq] at hk
        obtain hk | hk | ⟨htable, hk | ⟨hacc, hk⟩⟩ := (mem_imageReads hid).1 hk
        · exact execReads_inside hk
        · exact headerReads_inside_iff.2 hhead k hk
        · exact (pass1Reads_inside_iff htable).2 (hrest htable).1 k hk
        · obtain ⟨hentries, hsources⟩ := hrest htable
          exact (pass2Reads_inside_iff hacc hentries).2 (hsources hacc).2 k hk
      · intro hover
        exact hrefuses.2 fun hacc => ((hrest hacc.table).2 hacc).1 hover
  · have hnot : ¬ (load ≠ 0 ∧ 32 ≤ loadlen ∧ Identified (view s.mem load)) := fun h =>
      hid (hexec.2 h)
    constructor
    · intro _
      by_contra h
      obtain ⟨hload, h⟩ := not_or.1 h
      obtain ⟨hlen, h⟩ := not_or.1 h
      exact hnot ⟨hload, Nat.not_lt.1 hlen, not_not.1 (not_or.1 h).1⟩
    · intro _
      constructor
      · intro k hk
        rw [loaderReads_eq, imageReads, if_neg hid, List.append_nil] at hk
        exact execReads_inside hk
      · intro _
        exact (elf32PpcBeLoad_refuses_iff s load loadlen).2 fun h =>
          hnot ⟨h.1, h.2.1, h.2.2.identified⟩

/-- An image that lacks its last byte is loaded. -/
theorem linkedAway_truncated : ¬ StaysInside linkedAway machineInitLoad 84 := by
  intro h
  have hover : Overruns (view linkedAway.mem machineInitLoad) 84 := by
    refine .inr (.inr ⟨0, ?_⟩)
    decide +kernel
  have hret := h.rejects hover
  revert hret
  decide +kernel

end Pegasos2.BootKernel
