import Pegasos2.PartitionMethods

namespace Pegasos2.Fs
open Program
set_option autoImplicit true

namespace PartitionPkg

open Rdb (Env)

/-- The parent returns the sectors of a disk with the bytes `image`, as far as it can read them. -/
def SectorDisk (parent : List Request → Answer) (image : Nat → UInt8) : Prop :=
  ∀ h block, (parent (h ++ [⟨block, 1⟩])).ret = .noError → (parent (h ++ [⟨block, 1⟩])).got = 1 →
    ∀ i < 512, (parent (h ++ [⟨block, 1⟩])).data i = image (block * 512 + i)

/-- The number of bytes that a read of `len` bytes at `c` returns. -/
def avail (ps : PartitionSelf) (c len : Nat) : Nat := min (u32 len) (ps.sizeBytes - c)

/-- The last request is one for `block`, and has failed. -/
def Failed (parent : List Request → Answer) (s : Insts) (block k : Nat)
    (ret : Except Retcode Nat) : Prop :=
  (∃ h, s.requests = h ++ [⟨block, 1⟩]) ∧
    ((parent s.requests).ret ≠ .noError ∧ ret = .error (parent s.requests).ret ∨
      (parent s.requests).ret = .noError ∧ (parent s.requests).got ≠ 1 ∧ ret = .ok k)

/-- A read at `c` in the state `s` returns bytes of `f`, up to the end of the partition or to one
that is in a block which the parent has failed to read. -/
def ReadsAs (ps : PartitionSelf) (parent : List Request → Answer) (f : Nat → UInt8)
    (block : Nat → Nat) (inst c len : Nat) (dst : Buf) (s : Insts) (x : Except Retcode Nat × Buf)
    (s' : Insts) : Prop :=
  ∃ k ≤ avail ps c len, x.2 = dst.copy 0 f (ps.startByte + c) k ∧
    s'.cursor = Function.update s.cursor inst (some (c + k)) ∧
    (k = avail ps c len ∧ x.1 = .ok k ∨
      k < avail ps c len ∧ Failed parent s' (block (ps.startByte + c + k)) k x.1)

/-- Every read of `len` bytes at `c` returns the bytes of the disk from there on, and moves the
cursor behind them. -/
def ReadRight (ps : PartitionSelf) (c len : Nat) : Prop :=
  ∀ image parent inst s dst, SectorDisk parent image → s.cursor inst = some c →
    Prog.Returns (partRead ps parent inst len dst) s
      (ReadsAs ps parent image (· / 512) inst c len dst s)

/-- The read stays in the first 2 TiB of a disk with blocks of 512 bytes, or in the first sector. -/
def Aligned (ps : PartitionSelf) (c len : Nat) : Prop :=
  avail ps c len = 0 ∨
    ps.blockSize = 512 ∧ ps.startByte + c + avail ps c len ≤ 2 ^ 41 ∨
    ps.startByte + c + avail ps c len ≤ min 512 ps.blockSize

theorem copy_extend {dst f q : Buf} (h : ∀ j < n, q (off + j) = f (a + m + j)) :
    (dst.copy 0 f a m).copy m q off n = dst.copy 0 f a (m + n) := by
  funext i
  rw [Buf.copy, Buf.copy, Buf.copy]
  by_cases hm : m ≤ i ∧ i < m + n
  · rw [if_pos hm, if_pos ⟨Nat.zero_le i, by omega⟩, h _ (by omega)]
    congr 1
    omega
  · rw [if_neg hm]
    by_cases hi : i < m
    · rw [if_pos ⟨Nat.zero_le i, by omega⟩, if_pos ⟨Nat.zero_le i, by omega⟩]
    · rw [if_neg (by omega), if_neg (by omega)]

section Reads

variable {ps : PartitionSelf} {parent : List Request → Answer} {f : Nat → UInt8} {inst c len : Nat}
  {dst : Buf} {s : Insts}

theorem offInBlk_eq (hpos : 0 < ps.blockSize) (hlt : ps.blockSize < 2 ^ 32)
    (hcursor : ps.startByte + cursor < 2 ^ 64) :
    absByte ps cursor = ps.startByte + cursor ∧
      offInBlk ps cursor = (ps.startByte + cursor) % ps.blockSize := by
  have habs : absByte ps cursor = ps.startByte + cursor := Nat.mod_eq_of_lt hcursor
  have hmod := Nat.mod_lt (ps.startByte + cursor) hpos
  refine ⟨habs, ?_⟩
  rw [offInBlk, habs, Nat.mul_comm, ← Nat.mod_def, u32, Nat.mod_eq_of_lt (Nat.lt_trans hmod hlt)]

theorem chunk_eq (hpos : 0 < ps.blockSize) (hlt : ps.blockSize < 2 ^ 32) {r : Reading}
    (hcursor : ps.startByte + r.cursor < 2 ^ 64) (hremain : r.remain < 2 ^ 32) :
    chunk ps r = min (ps.blockSize - (ps.startByte + r.cursor) % ps.blockSize) r.remain := by
  rw [chunk, (offInBlk_eq hpos hlt hcursor).2, u32, Nat.mod_eq_of_lt hremain]
  split <;> omega

/-- What holds in the loop of `f_part_read`. -/
structure Reading.Tracks (ps : PartitionSelf) (f : Nat → UInt8) (inst c len : Nat) (dst : Buf)
    (s : Insts) (r : Reading) (s' : Insts) : Prop where
  cursor : r.cursor = c + r.copied
  total : r.copied + r.remain = avail ps c len
  dst : r.dst = dst.copy 0 f (ps.startByte + c) r.copied
  moved : s'.cursor = Function.update s.cursor inst (some (c + r.copied))

/-- The parent's answers agree with the bytes `f` where the read looks at them. -/
def Answers (ps : PartitionSelf) (parent : List Request → Answer) (f : Nat → UInt8)
    (c len : Nat) : Prop :=
  ∀ h p, ps.startByte + c ≤ p → p < ps.startByte + c + avail ps c len →
    (parent (h ++ [⟨u32 (p / ps.blockSize), 1⟩])).ret = .noError →
    (parent (h ++ [⟨u32 (p / ps.blockSize), 1⟩])).got = 1 →
    (parent (h ++ [⟨u32 (p / ps.blockSize), 1⟩])).data (p % ps.blockSize) = f p

theorem readRound_tracks (hpos : 0 < ps.blockSize) (hlt : ps.blockSize < 2 ^ 32)
    (hend : ps.startByte + c + avail ps c len ≤ 2 ^ 41) (hf : Answers ps parent f c len)
    {r : Reading} {s' : Insts} (h : r.Tracks ps f inst c len dst s s') :
    Prog.Returns (readRound ps parent inst r) s' (Prog.Returns.Round
      (Reading.Tracks ps f inst c len dst s) (·.remain) r.remain
        (ReadsAs ps parent f (fun p => u32 (p / ps.blockSize)) inst c len dst s)) := by
  have htotal := h.total
  have hlen : avail ps c len < 2 ^ 32 :=
    Nat.lt_of_le_of_lt (Nat.min_le_left _ _) (Nat.mod_lt _ (by decide))
  have hcopied : u32 r.copied = r.copied := Nat.mod_eq_of_lt (by omega)
  rw [readRound]
  by_cases hzero : r.remain = 0
  · rw [if_pos hzero]
    apply Prog.Returns.pure
    refine ⟨r.copied, by omega, h.dst, h.moved, .inl ⟨by omega, ?_⟩⟩
    rw [hcopied]
  · rw [if_neg hzero]
    have hcur : ps.startByte + r.cursor = ps.startByte + c + r.copied := by
      rw [h.cursor, Nat.add_assoc]
    have hplace : ps.startByte + r.cursor < 2 ^ 64 := by
      rw [hcur]
      omega
    obtain ⟨habs, hoff⟩ := offInBlk_eq hpos hlt hplace
    have hchunk := chunk_eq hpos hlt hplace (r := r) (by omega)
    rw [hcur] at habs hoff hchunk
    rw [habs]
    generalize hp : ps.startByte + c + r.copied = p at *
    have hmod := Nat.mod_lt p hpos
    refine .bind (P := fun a s'' => s''.cursor = s'.cursor ∧
      s''.requests = s'.requests ++ [⟨u32 (p / ps.blockSize), 1⟩] ∧ a = parent s''.requests)
      (.access ⟨rfl, rfl, rfl⟩) ?_
    rintro a s'' ⟨hcursor, hreq, ha⟩
    have hfail (ret : Except Retcode Nat)
        (hret : a.ret ≠ .noError ∧ ret = .error a.ret ∨
          a.ret = .noError ∧ a.got ≠ 1 ∧ ret = .ok r.copied) :
        ReadsAs ps parent f (fun p => u32 (p / ps.blockSize)) inst c len dst s (ret, r.dst)
          s'' := by
      refine ⟨r.copied, by omega, h.dst, hcursor.trans h.moved, .inr ⟨by omega, ?_⟩⟩
      rw [hp]
      exact ⟨⟨_, hreq⟩, ha ▸ hret⟩
    rw [takeBlock]
    by_cases hret : a.ret ≠ .noError
    · rw [if_pos hret]
      exact .pure (hfail _ (.inl ⟨hret, rfl⟩))
    · rw [if_neg hret]
      by_cases hgot : a.got ≠ 1
      · rw [if_pos hgot, hcopied]
        exact .pure (hfail _ (.inr ⟨not_not.1 hret, hgot, rfl⟩))
      · rw [if_neg hgot]
        refine .bind (P := fun _ s₃ => s₃.cursor =
          Function.update s''.cursor inst (some (u64 (r.cursor + chunk ps r)))) (.access rfl) ?_
        intro _ s₃ hs₃
        apply Prog.Returns.pure
        have hnext : u64 (r.cursor + chunk ps r) = c + (r.copied + chunk ps r) := by
          rw [h.cursor, u64, Nat.mod_eq_of_lt (by omega), Nat.add_assoc]
        refine ⟨⟨hnext, ?_, ?_, ?_⟩, ?_⟩
        · dsimp only
          omega
        · dsimp only
          rw [h.dst, hoff]
          apply copy_extend
          intro j hj
          have hin : p % ps.blockSize + j < ps.blockSize := by omega
          have hdiv : (p + j) / ps.blockSize = p / ps.blockSize := by
            rw [← Nat.div_add_mod p ps.blockSize, Nat.add_assoc, Nat.mul_add_div hpos,
              Nat.mul_add_div hpos, Nat.div_eq_of_lt hin, Nat.div_eq_of_lt hmod]
          have hrem : (p + j) % ps.blockSize = p % ps.blockSize + j := by
            rw [← Nat.mod_add_mod, Nat.mod_eq_of_lt hin]
          have hbyte := hf s'.requests (p + j) (by omega) (by omega)
          rw [hdiv, hrem, ← hreq, ← ha] at hbyte
          rw [hp]
          exact hbyte (not_not.1 hret) (not_not.1 hgot)
        · rw [hs₃, hcursor, h.moved, Function.update_idem, hnext]
        · dsimp only
          omega

theorem partRead_reads (hpos : 0 < ps.blockSize) (hlt : ps.blockSize < 2 ^ 32)
    (hend : avail ps c len = 0 ∨ ps.startByte + c + avail ps c len ≤ 2 ^ 41)
    (hf : Answers ps parent f c len) (hc : s.cursor inst = some c) (dst : Buf) :
    Prog.Returns (partRead ps parent inst len dst) s
      (ReadsAs ps parent f (fun p => u32 (p / ps.blockSize)) inst c len dst s) := by
  have hsame : s.cursor = Function.update s.cursor inst (some c) := by
    rw [← hc, Function.update_eq_self]
  have hcopy : dst = dst.copy 0 f (ps.startByte + c) 0 := by
    funext i
    rw [Buf.copy, if_neg (by omega)]
  have hnothing (h : avail ps c len = 0) :
      ReadsAs ps parent f (fun p => u32 (p / ps.blockSize)) inst c len dst s (.ok 0, dst) s :=
    ⟨0, Nat.zero_le _, hcopy, hsame, .inl ⟨h.symm, rfl⟩⟩
  refine .after (.access _ _) ?_
  rw [hc, readFrom]
  by_cases hlen : u32 len = 0
  · rw [if_pos hlen]
    refine .pure (hnothing ?_)
    rw [avail, hlen, Nat.zero_min]
  · rw [if_neg hlen]
    by_cases hpast : c ≥ ps.sizeBytes
    · rw [if_pos hpast]
      refine .pure (hnothing ?_)
      rw [avail, Nat.sub_eq_zero_of_le hpast, Nat.min_zero]
    · rw [if_neg hpast]
      have hpos' : avail ps c len ≠ 0 := by
        rw [avail]
        omega
      have hend := hend.resolve_left hpos'
      have hu32 : u32 len < 2 ^ 32 := Nat.mod_lt _ (by decide)
      have hclip : clip ps c (u32 len) = avail ps c len := by
        rw [clip, u64, Nat.mod_eq_of_lt (by omega), avail]
        split <;> omega
      refine .loop (Reading.Tracks ps f inst c len dst s) (·.remain)
        (fun r s' hr => readRound_tracks hpos hlt hend hf hr) ⟨rfl, ?_, hcopy, hsame⟩
      rw [hclip]
      exact Nat.zero_add _

end Reads

/-- Sector `block` of a disk, with zeros in the memory behind it. -/
def sectorData (image : Nat → UInt8) (block : Nat) : Buf := fun i =>
  if i < 512 then image (block * 512 + i) else 0

/-- A parent that can read every sector. -/
def soundParent (image : Nat → UInt8) (h : List Request) : Answer :=
  ⟨.noError, 1, sectorData image ((h.getLast?.map Request.block).getD 0)⟩

theorem soundParent_append (image : Nat → UInt8) (h : List Request) (r : Request) :
    soundParent image (h ++ [r]) = ⟨.noError, 1, sectorData image r.block⟩ := by
  rw [soundParent, List.getLast?_concat]
  rfl

theorem soundParent_sectorDisk (image : Nat → UInt8) : SectorDisk (soundParent image) image := by
  intro h block _ _ i hi
  rw [soundParent_append]
  exact if_pos hi

/-- A disk with one byte that is not zero. -/
def oneAt (p : Nat) : Nat → UInt8 := fun i => if i = p then 1 else 0

theorem oneAt_self (p : Nat) : oneAt p p = 1 := if_pos rfl

section Needed

variable {ps : PartitionSelf} {c len : Nat}

theorem ReadRight.copies (h : ReadRight ps c len) (image : Nat → UInt8) :
    ∃ x s', Prog.Halts (partRead ps (soundParent image) 0 len fun _ => 0) ⟨fun _ => some c, []⟩ x
      s' ∧ x.2 = Buf.copy (fun _ => 0) 0 image (ps.startByte + c) (avail ps c len) := by
  obtain ⟨x, s', hrun, k, hk, hdst, -, hall | ⟨-, ⟨hist, hreq⟩, hfail⟩⟩ :=
    h image (soundParent image) 0 ⟨fun _ => some c, []⟩ (fun _ => 0)
      (soundParent_sectorDisk image) rfl
  · rw [hall.1] at hdst
    exact ⟨x, s', hrun, hdst⟩
  · rw [hreq, soundParent_append] at hfail
    obtain ⟨hret, -⟩ | ⟨-, hgot, -⟩ := hfail
    · exact absurd rfl hret
    · exact absurd rfl hgot

theorem partRead_zero {image : Nat → UInt8} (hzero : ∀ p < 2 ^ 41, image p = 0)
    (hrun : Prog.Halts (partRead ps (soundParent image) 0 len fun _ => 0) s x s') :
    x.2 = fun _ => 0 := by
  have hsector (block : Nat) : sectorData image (u32 block) = fun _ => 0 := by
    have hlt : u32 block < 2 ^ 32 := Nat.mod_lt _ (by decide)
    funext i
    rw [sectorData]
    split_ifs with hi
    · exact hzero _ (by omega)
    · rfl
  have hcopy (m off n : Nat) : Buf.copy (fun _ => 0) m (fun _ => 0) off n = fun _ => 0 := by
    funext i
    rw [Buf.copy, ite_self]
  obtain ⟨cur, s₁, -, hrun⟩ := hrun.of_bind
  cases cur with
  | none =>
    obtain ⟨rfl, -⟩ := hrun.of_pure
    rfl
  | some c =>
    rw [readFrom] at hrun
    split_ifs at hrun with hlen hpast
    · obtain ⟨rfl, -⟩ := hrun.of_pure
      rfl
    · obtain ⟨rfl, -⟩ := hrun.of_pure
      rfl
    · have hround (r : Reading) (s₂ : Insts) (y : Reading ⊕ (Except Retcode Nat × Buf)) (s₃ : Insts)
          (hr : r.dst = fun _ => 0)
          (h : Prog.Halts (readRound ps (soundParent image) 0 r) s₂ y s₃) :
          Sum.elim (fun r => r.dst = fun _ => 0) (fun x => x.2 = fun _ => 0) y := by
        rw [readRound] at h
        split_ifs at h with hdone
        · obtain ⟨rfl, -⟩ := h.of_pure
          exact hr
        · obtain ⟨a, s₄, ha, h⟩ := h.of_bind
          obtain ⟨rfl, rfl⟩ := ha.of_access
          rw [soundParent_append, takeBlock, if_neg fun hne => hne rfl,
            if_neg fun hne => hne rfl] at h
          obtain ⟨_, s₅, -, h⟩ := h.of_bind
          obtain ⟨rfl, -⟩ := h.of_pure
          dsimp only [Sum.elim_inl]
          rw [hsector, hr, hcopy]
      refine hrun.loop_invariant (fun (r : Reading) _ => r.dst = fun _ => 0)
        (Q := fun (x : Except Retcode Nat × Buf) _ => x.2 = fun _ => 0) ?_ ?_ rfl
      · intro r s₂ r' s₃ hr h
        exact hround r s₂ (.inl r') s₃ hr h
      · intro r s₂ x s₃ hr h
        exact hround r s₂ (.inr x) s₃ hr h

theorem ReadRight.end_le (h : ReadRight ps c len) (hpos : avail ps c len ≠ 0) :
    ps.startByte + c + avail ps c len ≤ 2 ^ 41 := by
  by_contra hlt
  have hlt := Nat.not_le.1 hlt
  generalize hp : ps.startByte + c + (avail ps c len - 1) = p
  have hzero : ∀ i < 2 ^ 41, oneAt p i = 0 := fun i hi => if_neg (by omega)
  obtain ⟨x, s', hrun, hdst⟩ := h.copies (oneAt p)
  have hbyte := congrFun (hdst.symm.trans (partRead_zero hzero hrun)) (avail ps c len - 1)
  rw [Buf.copy, if_pos ⟨Nat.zero_le _, by omega⟩, Nat.sub_zero, hp, oneAt_self] at hbyte
  cases hbyte

theorem ReadRight.placed (h : ReadRight ps c len) (hpos : 0 < ps.blockSize)
    (hlt : ps.blockSize < 2 ^ 32) (hp : ps.startByte + c ≤ p)
    (hp' : p < ps.startByte + c + avail ps c len) :
    p % ps.blockSize < 512 ∧ u32 (p / ps.blockSize) * 512 + p % ps.blockSize = p := by
  obtain ⟨x, s', hrun, hdst⟩ := h.copies (oneAt p)
  have hanswers : Answers ps (soundParent (oneAt p))
      (fun i => sectorData (oneAt p) (u32 (i / ps.blockSize)) (i % ps.blockSize)) c len := by
    intro hist i _ _ _ _
    rw [soundParent_append]
  obtain ⟨y, s₁, hrun', k, hk, hdst', -, hall | ⟨-, ⟨hist, hreq⟩, hfail⟩⟩ :=
    partRead_reads hpos hlt (.inr (h.end_le (by omega))) hanswers
      (show (⟨fun _ => some c, []⟩ : Insts).cursor 0 = some c from rfl) fun _ => 0
  · obtain ⟨rfl, -⟩ := hrun.unique hrun'
    rw [hall.1] at hdst'
    have hbyte := congrFun (hdst.symm.trans hdst') (p - (ps.startByte + c))
    have hplace : ps.startByte + c + (p - (ps.startByte + c) - 0) = p := by omega
    rw [Buf.copy, Buf.copy, if_pos ⟨Nat.zero_le _, by omega⟩, if_pos ⟨Nat.zero_le _, by omega⟩,
      hplace, oneAt_self, sectorData] at hbyte
    split_ifs at hbyte with hin
    · refine ⟨hin, ?_⟩
      by_contra hne
      rw [oneAt, if_neg hne] at hbyte
      cases hbyte
    · cases hbyte
  · rw [hreq, soundParent_append] at hfail
    obtain ⟨hret, -⟩ | ⟨-, hgot, -⟩ := hfail
    · exact absurd rfl hret
    · exact absurd rfl hgot

/-- No block size below that of a sector makes up for a block number that wraps. -/
theorem wrapped_ne : ∀ k < 128, ∀ m < 128 / k, 0 < k → 0 < m → (m + 1) * k < 128 →
    m * k * 2 ^ 32 % (128 - k) ≠ 0 := by decide +kernel

theorem unit_ne {k b : Nat} (hk : 0 < k) (hk' : k < 128) (hb : 0 < b)
    (hlt : b * (k * 4) < 2 ^ 41) : u32 b * 512 ≠ b * (k * 4) := by
  intro heq
  obtain ⟨m, r, hr, rfl⟩ : ∃ m r, r < 2 ^ 32 ∧ b = m * 2 ^ 32 + r :=
    ⟨b / 2 ^ 32, b % 2 ^ 32, Nat.mod_lt _ (by decide), (Nat.div_add_mod' b _).symm⟩
  have hu32 : u32 (m * 2 ^ 32 + r) = r := by
    rw [u32, Nat.mul_add_mod_self_right, Nat.mod_eq_of_lt hr]
  have hsum : r * 128 = m * k * 2 ^ 32 + r * k := by
    have hmul : (m * 2 ^ 32 + r) * (k * 4) = (m * k * 2 ^ 32 + r * k) * 4 := by
      rw [← Nat.mul_assoc, Nat.add_mul, Nat.mul_right_comm m]
    rw [hu32, hmul] at heq
    omega
  have hprod : r * (128 - k) = m * k * 2 ^ 32 := by
    rw [Nat.mul_sub, hsum, Nat.add_sub_cancel]
  have hmk : m * k * 2 ^ 32 < (128 - k) * 2 ^ 32 := by
    rw [← hprod, Nat.mul_comm]
    exact Nat.mul_lt_mul_of_pos_left hr (by omega)
  have hmk := Nat.lt_of_mul_lt_mul_right hmk
  have hpos : 0 < m := by
    apply Nat.pos_of_ne_zero
    rintro rfl
    rw [Nat.zero_mul, Nat.zero_mul] at hprod
    have hzero := (Nat.mul_eq_zero.1 hprod).resolve_right (by omega)
    omega
  have hmul : (m + 1) * k < 128 := by
    rw [Nat.succ_mul]
    omega
  have hm : m < 128 / k := Nat.lt_of_succ_le ((Nat.le_div_iff_mul_le hk).2 (Nat.le_of_lt hmul))
  apply wrapped_ne k hk' m hm hk hpos hmul
  · rw [← hprod, Nat.mul_mod_left]

/-- A block that is not where its number says is not read, unless it is the first one. -/
theorem aligned_of_placed (hunit : ∃ k, ps.blockSize = k * 4) (hpos : 0 < ps.blockSize)
    (hne : ps.blockSize ≠ 512) (hle : p < 2 ^ 41) (hin : p % ps.blockSize < 512)
    (hplace : u32 (p / ps.blockSize) * 512 + p % ps.blockSize = p) :
    p < min 512 ps.blockSize := by
  have hdiv := Nat.div_add_mod' p ps.blockSize
  have hmul : u32 (p / ps.blockSize) * 512 = p / ps.blockSize * ps.blockSize :=
    Nat.add_right_cancel (hplace.trans hdiv.symm)
  by_cases hzero : p / ps.blockSize = 0
  · have hlt := (Nat.div_eq_zero_iff_lt hpos).1 hzero
    rw [Nat.mod_eq_of_lt hlt] at hin
    exact Nat.lt_min.2 ⟨hin, hlt⟩
  · exfalso
    have hb := Nat.pos_of_ne_zero hzero
    by_cases hbig : 512 < ps.blockSize
    · have hfew : p / ps.blockSize < 2 ^ 32 := by
        apply Nat.div_lt_of_lt_mul
        calc p < 512 * 2 ^ 32 := hle
          _ ≤ ps.blockSize * 2 ^ 32 := Nat.mul_le_mul_right _ (Nat.le_of_lt hbig)
      rw [u32, Nat.mod_eq_of_lt hfew] at hmul
      exact hne (Nat.eq_of_mul_eq_mul_left hb hmul).symm
    · obtain ⟨k, hk⟩ := hunit
      rw [hk] at hmul hdiv hb hpos hne hbig
      exact unit_ne (by omega) (by omega) hb (by omega) hmul

theorem ReadRight.aligned (h : ReadRight ps c len) (hunit : ∃ k, ps.blockSize = k * 4)
    (hpos : 0 < ps.blockSize) (hlt : ps.blockSize < 2 ^ 32) : Aligned ps c len := by
  by_cases hzero : avail ps c len = 0
  · exact .inl hzero
  · right
    have hend := h.end_le hzero
    by_cases hne : ps.blockSize = 512
    · exact .inl ⟨hne, hend⟩
    · right
      -- The last byte is in the first block, and so the read is.
      obtain ⟨hin, hplace⟩ := h.placed (p := ps.startByte + c + avail ps c len - 1) hpos hlt
        (by omega) (by omega)
      have hlast := aligned_of_placed hunit hpos hne (by omega) hin hplace
      omega

theorem Aligned.readRight (h : Aligned ps c len) (hpos : 0 < ps.blockSize)
    (hlt : ps.blockSize < 2 ^ 32) : ReadRight ps c len := by
  intro image parent inst s dst hdisk hc
  have hend : avail ps c len = 0 ∨ ps.startByte + c + avail ps c len ≤ 2 ^ 41 := by
    obtain h | h | h := h
    · exact .inl h
    · exact .inr h.2
    · have hmin := Nat.min_le_left 512 ps.blockSize
      exact .inr (by omega)
  have hplace (p : Nat) (hp : ps.startByte + c ≤ p) (hp' : p < ps.startByte + c + avail ps c len) :
      u32 (p / ps.blockSize) = p / 512 ∧ p % ps.blockSize = p % 512 := by
    obtain h | ⟨hsize, h⟩ | h := h
    · omega
    · rw [hsize, u32, Nat.mod_eq_of_lt (by omega)]
      exact ⟨rfl, rfl⟩
    · have hp512 : p < 512 := by omega
      have hbs : p < ps.blockSize := by omega
      rw [Nat.div_eq_of_lt hp512, Nat.div_eq_of_lt hbs, Nat.mod_eq_of_lt hp512,
        Nat.mod_eq_of_lt hbs]
      exact ⟨rfl, rfl⟩
  have hanswers : Answers ps parent image c len := by
    intro hist p hp hp' hret hgot
    obtain ⟨hblock, hoff⟩ := hplace p hp hp'
    rw [hblock] at hret hgot ⊢
    rw [hoff, hdisk hist (p / 512) hret hgot _ (Nat.mod_lt p (by decide)), Nat.div_add_mod']
  apply (partRead_reads hpos hlt hend hanswers hc dst).mono
  rintro x s' ⟨k, hk, hdst, hmoved, hall | ⟨hshort, hfail⟩⟩
  · exact ⟨k, hk, hdst, hmoved, .inl hall⟩
  · refine ⟨k, hk, hdst, hmoved, .inr ⟨hshort, ?_⟩⟩
    obtain ⟨hblock, -⟩ := hplace _ (Nat.le_add_right _ k) (Nat.add_lt_add_left hshort _)
    dsimp only at hfail ⊢
    rw [← hblock]
    exact hfail

end Needed

section Calls

variable (ps : PartitionSelf) (parent : List Request → Answer) (inst : Nat)

/-- A seek to `pos` moves the cursor there, unless that is behind the end of the partition. -/
def SeeksTo (pos : Nat) (s : Insts) (x : Except Retcode Nat) (s' : Insts) : Prop :=
  if pos > ps.sizeBytes then x = .ok 0xFFFFFFFF ∧ s'.cursor = s.cursor
  else x = .ok 0 ∧ s'.cursor = Function.update s.cursor inst (some pos)

/-- The states reached by seeks and aligned reads of an instance. -/
inductive Calls (s₀ : Insts) : Insts → Prop
  | start : Calls s₀ s₀
  | seek (h : Calls s₀ s) (hrun : Prog.Halts (partSeek ps inst posLo posHi) s x s') : Calls s₀ s'
  | read (h : Calls s₀ s) (hal : ∀ c, s.cursor inst = some c → Aligned ps c len)
      (hrun : Prog.Halts (partRead ps parent inst len dst) s x s') : Calls s₀ s'

/-- Seeks and aligned reads see an array of the bytes `image`, with a cursor. -/
def SeesArray (image : Nat → UInt8) (s : Insts) : Prop :=
  ∃ c, s.cursor inst = some c ∧
    (∀ posLo posHi, Prog.Returns (partSeek ps inst posLo posHi) s
      (SeeksTo ps inst (u32 posLo + u32 posHi * 2 ^ 32) s)) ∧
    ∀ len dst, Aligned ps c len → Prog.Returns (partRead ps parent inst len dst) s
      (ReadsAs ps parent image (· / 512) inst c len dst s)

variable {ps parent inst}

theorem partSeek_seeks (hc : s.cursor inst = some c) (posLo posHi : Nat) :
    Prog.Returns (partSeek ps inst posLo posHi) s
      (SeeksTo ps inst (u32 posLo + u32 posHi * 2 ^ 32) s) := by
  refine .after (.access _ _) ?_
  rw [hc, seekTo]
  split_ifs with hpast
  · apply Prog.Returns.pure
    rw [SeeksTo, if_pos hpast]
    exact ⟨rfl, rfl⟩
  · refine .after (.access _ _) (.pure ?_)
    rw [SeeksTo, if_neg hpast]
    exact ⟨rfl, rfl⟩

theorem Calls.cursor (h : Calls ps parent inst s₀ s) (hpos : 0 < ps.blockSize)
    (hlt : ps.blockSize < 2 ^ 32) {image : Nat → UInt8} (hdisk : SectorDisk parent image)
    (hc : s₀.cursor inst = some c) : ∃ c, s.cursor inst = some c := by
  induction h with
  | start => exact ⟨c, hc⟩
  | @seek s posLo posHi x s' h hrun ih =>
    obtain ⟨c', hc'⟩ := ih
    obtain ⟨x', s₁, hrun', hseek⟩ : Prog.Returns (partSeek ps inst posLo posHi) s _ :=
      partSeek_seeks hc' posLo posHi
    obtain ⟨rfl, rfl⟩ := hrun.unique hrun'
    rw [SeeksTo] at hseek
    split_ifs at hseek with hpast
    · exact ⟨c', hseek.2 ▸ hc'⟩
    · refine ⟨u32 posLo + u32 posHi * 2 ^ 32, ?_⟩
      rw [hseek.2, Function.update_self]
  | @read s len dst x s' h hal hrun ih =>
    obtain ⟨c', hc'⟩ := ih
    obtain ⟨x', s₁, hrun', k, -, -, hmoved, -⟩ :=
      (hal c' hc').readRight hpos hlt image parent inst s dst hdisk hc'
    obtain ⟨rfl, rfl⟩ := hrun.unique hrun'
    refine ⟨c' + k, ?_⟩
    rw [hmoved, Function.update_self]

end Calls

theorem partitionSelf_unit (v : Env) (start size : Nat) :
    (∃ k, (partitionSelf v start size).blockSize = k * 4) ∧
      0 < (partitionSelf v start size).blockSize ∧
        (partitionSelf v start size).blockSize < 2 ^ 32 := by
  have hlt : u32 (v.sizeBlock * 4) < 2 ^ 32 := Nat.mod_lt _ (by decide)
  rw [partitionSelf]
  dsimp only
  split_ifs with hzero
  · exact ⟨⟨128, rfl⟩, by decide, by decide⟩
  · refine ⟨⟨u32 (v.sizeBlock * 4) / 4, ?_⟩, Nat.pos_of_ne_zero hzero, hlt⟩
    rw [u32] at hlt ⊢
    omega

/-- A read is right just if it is aligned, and seeks and aligned reads see the partition as an
array of bytes. -/
theorem partRead_right_iff (v : Env) (start size c len : Nat) :
    (ReadRight (partitionSelf v start size) c len ↔ Aligned (partitionSelf v start size) c len) ∧
      ∀ image parent inst s₀ s, SectorDisk parent image → s₀.cursor inst = some c →
        Calls (partitionSelf v start size) parent inst s₀ s →
          SeesArray (partitionSelf v start size) parent inst image s := by
  obtain ⟨hunit, hpos, hlt⟩ := partitionSelf_unit v start size
  constructor
  · constructor
    · intro h
      exact h.aligned hunit hpos hlt
    · intro h
      exact h.readRight hpos hlt
  · intro image parent inst s₀ s hdisk hc hcalls
    obtain ⟨c', hc'⟩ := hcalls.cursor hpos hlt hdisk hc
    refine ⟨c', hc', fun posLo posHi => partSeek_seeks hc' posLo posHi, fun len' dst hal => ?_⟩
    exact hal.readRight hpos hlt image parent inst s dst hdisk hc'

/-- The environment of a partition with blocks of 1024 bytes. -/
def wideEnv : Env := ⟨256, 1, 1, 1, 2, 5, 0, 0⟩

/-- The first byte of a partition that starts at 2048 is looked for in sector 2. -/
theorem wideEnv_misreads : wideEnv.range = some (2048, 4096) ∧
    ¬ ReadRight (partitionSelf wideEnv 2048 4096) 0 1 := by
  refine ⟨by decide, fun h => ?_⟩
  obtain ⟨-, hplace⟩ := h.placed (p := 2048) (by decide) (by decide) (by decide) (by decide)
  revert hplace
  decide

end PartitionPkg

end Pegasos2.Fs
