import Pegasos2.AmigaVolume
import Pegasos2.ByteFields
import Pegasos2.PartitionPkg
import Mathlib.Data.List.TakeWhile

namespace Pegasos2.Fs
open Program
open PartitionPkg (Agree)
set_option autoImplicit true

/-- A block of zeros with the fields `fs`, which `struct.pack_into` refuses if one does not fit. -/
def packed (fs : List Field) : Option Buf :=
  if ∀ f ∈ fs, f.Fits then some (written fs.reverse) else none

/-- The number that makes the sum of the longs of a block zero. -/
def sumToZero (n : Nat) (blk : Buf) : Nat := u32 (2 ^ 32 - Rdb.checksum blk n)

/-- A block of `n` longs with its checksum at `off`. -/
def checksummed (off n : Nat) (fs : List Field) : Option Buf :=
  (packed fs).map fun blk => (be off 4 (sumToZero n blk)).put blk

theorem packed_holds (h : packed fs = some b) (n : Nat) : Holds n fs b := by
  rw [packed] at h
  split_ifs at h with hfits
  obtain rfl := Option.some.inj h
  exact ⟨hfits, fun _ _ => rfl⟩

theorem be32_put_ne (f : Field) (b : Buf) (h : i + 4 ≤ f.off ∨ f.off + f.width ≤ i) :
    be32 (f.put b) i = be32 b i :=
  be32_congr fun _ hj => f.put_outside b (by omega)

theorem checksum_lt (b : Buf) (n : Nat) : Rdb.checksum b n < 2 ^ 32 := by
  cases n with
  | zero => exact Nat.pow_pos (by decide)
  | succ n => exact Nat.mod_lt _ (Nat.pow_pos (by decide))

theorem checksum_put (b : Buf) (k v : Nat) (hzero : be32 b (k * 4) = 0)
    (hv : be32 ((be (k * 4) 4 v).put b) (k * 4) = v) (n : Nat) :
    Rdb.checksum ((be (k * 4) 4 v).put b) n =
      if k < n then u32 (Rdb.checksum b n + v) else Rdb.checksum b n := by
  induction n with
  | zero => rfl
  | succ n ih =>
    rw [Rdb.checksum, Rdb.checksum, ih]
    obtain hn | rfl | hn := Nat.lt_trichotomy n k
    · rw [if_neg (by omega), if_neg (by omega), be32_put_ne _ _ (.inl (by simp only; omega))]
    · rw [if_neg (Nat.lt_irrefl n), if_pos (Nat.lt_succ_self n), hv, hzero]
      simp only [u32, Nat.add_zero, Nat.mod_add_mod]
    · rw [if_pos hn, if_pos (by omega), be32_put_ne _ _ (.inr (by simp only; omega))]
      simp only [u32, Nat.mod_add_mod]
      congr 1
      omega

theorem sumToZero_lt (n : Nat) (blk : Buf) : sumToZero n blk < 2 ^ 32 :=
  Nat.mod_lt _ (Nat.pow_pos (by decide))

theorem be32_put_be (b : Buf) (off v : Nat) (h : v < 2 ^ 32) :
    be32 ((be off 4 v).put b) off = v := by
  have hbyte (j : Nat) (hj : j < 4) : ((be off 4 v).put b).nat (off + j) =
      v / 256 ^ (3 - j) % 256 := by
    rw [Buf.nat, (be off 4 v).put_inside b hj, Field.byte, UInt8.toNat_ofNat']
    rfl
  have h0 : ((be off 4 v).put b).nat off = v / 16777216 % 256 := hbyte 0 (by decide)
  have h1 : ((be off 4 v).put b).nat (off + 1) = v / 65536 % 256 := hbyte 1 (by decide)
  have h2 : ((be off 4 v).put b).nat (off + 2) = v / 256 % 256 := hbyte 2 (by decide)
  have h3 : ((be off 4 v).put b).nat (off + 3) = v / 1 % 256 := hbyte 3 (by decide)
  rw [be32, h0, h1, h2, h3]
  omega

/-- A block with a checksum is one with another field, and its longs add up to zero. -/
theorem checksummed_holds (h : checksummed (k * 4) n fs = some b)
    (hl : lookup (k * 4) 4 false fs.reverse = some 0) (hk : k < n) (m : Nat) :
    (∃ c, Holds m (fs ++ [be (k * 4) 4 c]) b) ∧ Rdb.checksum b n = 0 := by
  obtain ⟨blk, hpacked, rfl⟩ := Option.map_eq_some_iff.1 h
  have hblk := packed_holds hpacked m
  have hlt := sumToZero_lt n blk
  constructor
  · refine ⟨sumToZero n blk, fun f hf => ?_, fun i hi => ?_⟩
    · obtain hf | hf := List.mem_append.1 hf
      · exact hblk.fits f hf
      · rw [List.mem_singleton.1 hf]
        exact hlt
    · rw [List.reverse_append]
      show Field.put _ blk i = Field.put _ (written fs.reverse) i
      rw [Field.put, Field.put, hblk.byte i hi]
  · have hzero : be32 blk (k * 4) = 0 := (packed_holds hpacked (k * 4 + 4)).be32 hl (Nat.le_refl _)
    rw [checksum_put blk k _ hzero (be32_put_be blk _ _ hlt), if_pos hk]
    have hsum := checksum_lt blk n
    rw [u32, sumToZero, u32, Nat.add_mod_mod, Nat.add_sub_cancel' (Nat.le_of_lt hsum), Nat.mod_self]

theorem checksum_zero (n : Nat) : Rdb.checksum (fun _ => 0) n = 0 := by
  induction n with
  | zero => rfl
  | succ n ih =>
    have hzero : be32 (fun _ => 0) (n * 4) = 0 := by simp [be32, Buf.nat]
    rw [Rdb.checksum, ih, hzero, u32, Nat.zero_mod]

theorem checksum_first (h : Holds (n * 4) [be 0 4 v] b) (hn : 0 < n) :
    Rdb.checksum b n = v := by
  have hv : v < 2 ^ 32 := h.fits _ List.mem_cons_self
  have hagree : Agree (n * 4) b ((be (0 * 4) 4 v).put fun _ => 0) := h.byte
  have hput : be32 ((be (0 * 4) 4 v).put fun _ => 0) (0 * 4) = v := be32_put_be _ _ v hv
  rw [hagree.checksum (Nat.le_refl _), checksum_put _ 0 v rfl hput n, if_pos hn, checksum_zero,
    Nat.zero_add]
  exact Nat.mod_eq_of_lt hv

theorem bytes_of_holds (h : Holds n fs b) (hl : lookup off width false fs.reverse = some v)
    (hn : off + width ≤ n) :
    bytes b off width = (List.range width).map fun j => .ofNat (v / 256 ^ (width - 1 - j)) :=
  List.map_congr_left fun _ hj => h.byte_of_slice hl hn (List.mem_range.1 hj)

theorem cstringLen_eq {l : List UInt8} (h : bytes b p (l.length + 1) = l ++ [0])
    (hl : ∀ c ∈ l, c ≠ 0) (hn : l.length < n) : cstringLen b p n = l.length := by
  induction l generalizing p n with
  | nil =>
    obtain ⟨n, rfl⟩ := Nat.exists_eq_succ_of_ne_zero (Nat.ne_of_gt hn)
    rw [bytes_succ] at h
    rw [cstringLen, if_pos (List.cons.inj h).1]
    rfl
  | cons c l ih =>
    obtain ⟨n, rfl⟩ := Nat.exists_eq_succ_of_ne_zero (Nat.ne_of_gt (Nat.zero_lt_of_lt hn))
    rw [List.length_cons, bytes_succ] at h
    obtain ⟨hc, hrest⟩ := List.cons.inj h
    rw [cstringLen, if_neg (by rw [hc]; exact hl c List.mem_cons_self),
      ih hrest (fun x hx => hl x (List.mem_cons_of_mem _ hx)) (Nat.lt_of_succ_lt_succ hn)]
    rfl

theorem bytes_of_cstring {l : List UInt8} (h : bytes b p (l.length + 1) = l ++ [0]) :
    bytes b p l.length = l := by
  have htake := congrArg (List.take l.length) h
  rw [List.take_left, bytes, ← List.map_take, List.take_range, Nat.min_eq_left (Nat.le_succ _)]
    at htake
  exact htake

def bufOf (l : List UInt8) : Buf := fun i => l.getD i 0

/-- Block `i` of a file, filled up with zeros. -/
def chunk (payload : List UInt8) (i : Nat) : Buf := fun j => bufOf payload (i * bsize + j)

/-- The disk holds `n` blocks at `loc`, and reads of them succeed. -/
structure Serves (d : Disk) (loc n : Nat) (blocks : Nat → Buf) : Prop where
  fits : loc + n * bsize ≤ 2 ^ 64
  read : ∀ time, ∀ k < n, ∃ data, d.read time (loc + k * bsize) bsize = .ok data ∧
    Agree bsize data (blocks k)

/-- The path of the file on the generated volumes. -/
def testElf : List Char := "test.elf".toList

theorem testElf_isSep : ∀ c ∈ testElf, isSep c = false := by
  have hall : testElf.all (isSep · == false) = true := by decide
  intro c hc
  exact beq_iff_eq.1 (List.all_eq_true.1 hall c hc)

/-- `FS_LOAD` returns the payload. -/
def Loads (payload : List UInt8) (q : Call) (r : Reply) : Prop :=
  r.ret = .rEnd ∧ r.val = payload.length ∧
    r.retbuf = q.retbuf.copy 0 (bufOf payload) 0 payload.length

theorem Serves.filesysReadBytes (h : Serves d loc n blocks) (hk : k < n) (buf : Buf) :
    Prog.Yields (filesysReadBytes d (u64 (loc + k * bsize)) bsize buf) fun x =>
      x.1 = .noError ∧ Agree bsize x.2 (blocks k) := by
  have hle : k * bsize < n * bsize := Nat.mul_lt_mul_of_pos_right hk (by decide)
  have hfits := h.fits
  rw [u64, Nat.mod_eq_of_lt (by omega)]
  apply Prog.Yields.access
  intro w
  obtain ⟨data, hdata, hagree⟩ := h.read w.reads k hk
  simp only [hdata]
  refine ⟨trivial, fun i hi => ?_⟩
  rw [← Nat.zero_add i, Buf.copy_inside buf data hi]
  exact hagree (0 + i) (by omega)

theorem Serves.readBlock (h : Serves d loc n blocks) (hk : k < n) (buf : Buf) :
    Prog.Yields (readBlock d loc k buf) fun x => x.1 = .noError ∧ Agree bsize x.2 (blocks k) :=
  h.filesysReadBytes hk buf

/-- The next part of a payload is copied behind the first `m` bytes of it. -/
theorem copy_copy (out p q : Buf) (h : ∀ j < k, q j = p (m + j)) :
    (out.copy 0 p 0 m).copy m q 0 k = out.copy 0 p 0 (m + k) := by
  funext i
  rw [Buf.copy, Buf.copy, Buf.copy]
  split_ifs
  · rw [h _ (by omega)]
    congr 1
    omega
  · omega
  · rfl
  · omega
  · omega
  · rfl

/-- The first `m` bytes of a file with the bytes `f` have been read. -/
def Copied.Filled (f out : Buf) (m : Nat) (c : Copied) : Prop := c = ⟨m, out.copy 0 f 0 m⟩

theorem Copied.Filled.append {f dst : Buf} (h : Filled f dst m c) (hm : m ≤ byteSize)
    (hb : ∀ j < size, m + j < byteSize → b j = f (m + j)) :
    Filled f dst (min (m + size) byteSize) (c.append byteSize size b) := by
  rw [Filled] at h
  subst h
  have hlen : m + min (byteSize - m) size = min (m + size) byteSize := by omega
  rw [Filled, Copied.append]
  simp only
  rw [copy_copy, hlen]
  intro j hj
  exact hb j (by omega) (by omega)

theorem Copied.Filled.zero (f dst : Buf) : Filled f dst 0 ⟨0, dst⟩ := by
  rw [Filled, Copied.mk.injEq]
  refine ⟨rfl, ?_⟩
  funext i
  rw [Buf.copy, if_neg (by omega)]

theorem Copied.Filled.written {f dst : Buf} (h : Filled f dst m c) : c.written = m := by
  rw [Filled] at h
  rw [h]

/-- The first `m` bytes of the payload have been read. -/
def Copied.Read (payload : List UInt8) (out : Buf) (m : Nat) (c : Copied) : Prop :=
  c = ⟨m, out.copy 0 (bufOf payload) 0 m⟩

theorem Copied.Read.append {dst : Buf} (h : Read payload dst (i * bsize) c)
    (hlt : i * bsize < payload.length) (hb : Agree bsize b (chunk payload i)) :
    Read payload dst (min ((i + 1) * bsize) payload.length) (c.append payload.length bsize b) := by
  have hfilled : Filled (bufOf payload) dst (i * bsize) c := h
  rw [Nat.succ_mul]
  exact hfilled.append (Nat.le_of_lt hlt) fun j hj _ => hb j hj

theorem Copied.Read.zero (payload : List UInt8) (dst : Buf) : Read payload dst 0 ⟨0, dst⟩ :=
  Filled.zero (bufOf payload) dst

theorem Copied.Read.written {dst : Buf} (h : Read payload dst m c) : c.written = m :=
  Filled.written h

/-- The blocks of a payload follow each other from `first` on. -/
def HoldsFile (blocks : Nat → Buf) (first : Nat) (payload : List UInt8) : Prop :=
  ∀ i, i * bsize < payload.length → Agree bsize (blocks (first + i)) (chunk payload i)

theorem Agree.trans (h : Agree n a b) (h' : Agree n b c) : Agree n a c :=
  fun i hi => (h i hi).trans (h' i hi)

section Load

variable {d : Disk} {loc n : Nat} {blocks : Nat → Buf} {payload : List UInt8}

theorem readExtent_loads (h : Serves d loc n blocks) (hn : n ≤ 2 ^ 32) (stack dst : Buf)
    (x : Extent) (hx : x.first + x.blocks ≤ n) (hlen : payload.length ≤ x.blocks * bsize)
    (hfile : HoldsFile blocks x.first payload) :
    Prog.Yields (readExtent d stack loc payload.length x ⟨0, dst⟩) fun y =>
      y.1 = .noError ∧ Copied.Read payload dst payload.length y.2 := by
  apply Prog.Yields.loop
    (fun s => s.1 ≤ x.blocks ∧ Copied.Read payload dst (min (s.1 * bsize) payload.length) s.2)
    (fun s => x.blocks - s.1)
  · rintro ⟨i, c⟩ ⟨hi, hread⟩
    have hwritten := hread.written
    rw [extentRound]
    split_ifs with hmore
    · have hlt : i * bsize < payload.length := by
        have hmore := hmore.2
        simp only at hmore hwritten
        omega
      have hblk : u32 (x.first + i) = x.first + i :=
        Nat.mod_eq_of_lt (Nat.lt_of_lt_of_le (Nat.add_lt_add_left hmore.1 _) (Nat.le_trans hx hn))
      rw [hblk]
      have hin : x.first + i < n := Nat.lt_of_lt_of_le (Nat.add_lt_add_left hmore.1 _) hx
      apply Prog.Yields.bind (h.readBlock hin stack)
      rintro ⟨ret, b⟩ ⟨hret, hb⟩
      apply Prog.Yields.pure
      rw [if_neg fun hne => hne hret]
      simp only at hread
      rw [Nat.min_eq_left (Nat.le_of_lt hlt)] at hread
      exact ⟨⟨hmore.1, hread.append hlt (Agree.trans hb (hfile i hlt))⟩,
        Nat.sub_succ_lt_self _ _ hmore.1⟩
    · apply Prog.Yields.pure
      refine ⟨rfl, ?_⟩
      have hall : min (i * bsize) payload.length = payload.length := by
        by_contra hne
        refine hmore ⟨?_, ?_⟩
        · by_contra hge
          have hmul : x.blocks * bsize ≤ i * bsize := Nat.mul_le_mul_right _ (Nat.not_lt.1 hge)
          omega
        · simp only at hwritten ⊢
          omega
      rw [← hall]
      exact hread
  · refine ⟨Nat.zero_le _, ?_⟩
    rw [Nat.zero_mul, Nat.zero_min]
    exact .zero payload dst

theorem readFile_loads (h : Serves d loc n blocks) (hn : n ≤ 2 ^ 32) (stack dst : Buf)
    {lookup : Nat → Io (Except Retcode Extent)} {key : Nat} (hkey : key ≠ 0) {x : Extent}
    (hlookup : Prog.Yields (lookup key) (· = .ok x)) (hlast : x.next = 0)
    (hx : x.first + x.blocks ≤ n) (hlen : payload.length ≤ x.blocks * bsize)
    (hfile : HoldsFile blocks x.first payload) :
    Prog.Yields (readFile d stack loc lookup key payload.length dst) fun y =>
      y.1 = .noError ∧ Copied.Read payload dst payload.length y.2 := by
  -- Either nothing has been read, or the only extent has.
  apply Prog.Yields.loop
    (fun s => s.copied = ⟨0, dst⟩ ∧ s.key = key ∧ s.guard = 0 ∨
      s.key = 0 ∧ Copied.Read payload dst payload.length s.copied)
    (fun s => if s.key = 0 then 0 else 1)
  · rintro ⟨k, guard, c⟩ (⟨hc, hk, hg⟩ | ⟨hk, hread⟩)
    · simp only at hc hk hg
      subst hc hk hg
      rw [chainRound]
      split_ifs with hmore hguard
      · exact absurd hguard (Nat.not_lt.2 (Nat.le_of_ble_eq_true rfl))
      · apply Prog.Yields.bind hlookup
        rintro _ rfl
        have hblocks : x.blocks ≠ 0 := by
          intro hzero
          have hpos : 0 < payload.length := hmore.1
          rw [hzero, Nat.zero_mul] at hlen
          omega
        rw [chainNext, if_neg hblocks]
        apply Prog.Yields.bind (readExtent_loads h hn stack dst x hx hlen hfile)
        rintro ⟨ret, c⟩ ⟨hret, hread⟩
        apply Prog.Yields.pure
        rw [if_neg fun hne => hne hret, hlast]
        exact ⟨.inr ⟨rfl, hread⟩, by simp⟩
      · apply Prog.Yields.pure
        refine ⟨rfl, ?_⟩
        have hzero : payload.length = 0 := by
          by_contra hne
          exact hmore ⟨Nat.pos_of_ne_zero hne, hkey⟩
        rw [hzero]
        exact .zero payload dst
    · simp only at hk
      subst hk
      rw [chainRound, if_neg fun hmore => hmore.2 rfl]
      exact Prog.Yields.pure ⟨rfl, hread⟩
  · exact .inl ⟨rfl, rfl, rfl⟩

theorem loaded_loads (q : Call) {ret : Retcode} {c : Copied} (hret : ret = .noError)
    (h : Copied.Read payload q.retbuf payload.length c) : Loads payload q (loaded q ret c) := by
  rw [Copied.Read] at h
  subst hret h
  rw [loaded, if_neg fun hne => hne rfl]
  exact ⟨rfl, rfl, rfl⟩

end Load

theorem Walker.walkPath_single (k : Walker δ ε ρ) {root : δ} {path : List Char}
    (hne : path ≠ []) (hsep : ∀ c ∈ path, isSep c = false)
    (h : Prog.Yields (k.lookup root (component path)) (· = .ok x)) :
    Prog.Yields (k.walkPath root path) (· = .ok (k.last x)) := by
  have hall : path.takeWhile (fun c => !isSep c) = path :=
    List.takeWhile_eq_self_iff.2 fun c hc => by rw [hsep c hc]; rfl
  have hrest : fromSep path = [] :=
    List.dropWhile_eq_nil_iff.2 fun c hc => by rw [hsep c hc]; rfl
  have hstart : path.dropWhile isSep = path := by
    cases path with
    | nil => rfl
    | cons c l => rw [List.dropWhile_cons_of_neg (by rw [hsep c List.mem_cons_self]; decide)]
  rw [walkPath, hstart]
  refine Prog.Yields.loop (fun s => s = (root, path)) (fun _ => 0) ?_ rfl
  rintro _ rfl
  have hcomp : component path ≠ [] := by
    rw [component, hall]
    exact fun hnil => hne (List.map_eq_nil_iff.1 hnil)
  rw [round, if_neg hne, if_neg hcomp]
  apply Prog.Yields.bind h
  rintro _ rfl
  apply Prog.Yields.pure
  rw [next, hrest, if_pos rfl]
  rfl

end Pegasos2.Fs
