import Pegasos2.FsDisk

namespace Pegasos2.Fs
open Program
set_option autoImplicit true

namespace Rdb

def blockSizeDefault : Nat := 512

def maxPartitions : Nat := 32

def magicRdsk : Nat := 0x5244534B

def magicPart : Nat := 0x50415254

def checksum (block : Buf) : Nat → Nat
  | 0 => 0
  | n + 1 => u32 (checksum block n + be32 block (n * 4))

def rdbChecksumOk (block : Buf) (longCount : Nat) : Bool :=
  longCount ≠ 0 && longCount ≤ 128 && checksum block longCount == 0

/-- The fields of `pb_Environment` that are used. -/
structure Env where
  sizeBlock : Nat
  surfaces : Nat
  sectorPerBlock : Nat
  blocksPerTrack : Nat
  lowCyl : Nat
  highCyl : Nat
  bootPri : Nat
  dosType : Nat

def env (block : Buf) : Env where
  sizeBlock := be32 block (128 + 1 * 4)
  surfaces := be32 block (128 + 3 * 4)
  sectorPerBlock := be32 block (128 + 4 * 4)
  blocksPerTrack := be32 block (128 + 5 * 4)
  lowCyl := be32 block (128 + 9 * 4)
  highCyl := be32 block (128 + 10 * 4)
  bootPri := be32 block (128 + 15 * 4)
  dosType := be32 block (128 + 16 * 4)

/-- Bytes per cylinder. -/
def Env.bpc (v : Env) : Nat := u64 (v.surfaces * v.blocksPerTrack * v.sizeBlock * 4)

/-- The start and the size of a partition in bytes, unless its environment is bad. -/
def Env.range (v : Env) : Option (Nat × Nat) :=
  if v.sizeBlock = 0 ∨ v.surfaces = 0 ∨ v.blocksPerTrack = 0 ∨ v.highCyl < v.lowCyl then none
  else some (u64 (v.lowCyl * v.bpc), u64 (u32 (v.highCyl - v.lowCyl + 1) * v.bpc))

def decodePartitionRange (block : Buf) : Option (Nat × Nat) := (env block).range

/-- `de_SizeBlock * 4 * de_SectorPerBlock`, with the defaults for zeros. -/
def Env.fsBlockSize (v : Env) : Nat :=
  u32 ((if v.sizeBlock = 0 then 128 else v.sizeBlock) * 4 *
    (if v.sectorPerBlock = 0 then 1 else v.sectorPerBlock))

/-- The loop of `find_rdb` from block `b` on, `n` blocks being left. -/
def findRdbFrom (d : Disk) (loc : Nat) : Nat → Nat → Buf → Io (Option Nat × Buf)
  | 0, _, buf => pure (none, buf)
  | n + 1, b, buf => do
    let (ret, buf) ← filesysReadBytes d (u64 (loc + b * blockSizeDefault)) blockSizeDefault buf
    if ret ≠ .noError then pure (none, buf)
    else if be32 buf 0 = magicRdsk ∧ rdbChecksumOk buf (be32 buf 4) then pure (some b, buf)
    else findRdbFrom d loc n (b + 1) buf

def findRdb (d : Disk) (loc : Nat) (buf : Buf) : Io (Option Nat × Buf) :=
  findRdbFrom d loc 16 0 buf

def isDigit (c : Char) : Bool := '0' ≤ c && c ≤ '9'

/-- The digits at the front of a path, as a C `int`. -/
def takeDigits (n : Int) : List Char → Int × List Char
  | [] => (n, [])
  | c :: l =>
    if isDigit c then takeDigits (Int.bmod (n * 10 + (c.toNat - '0'.toNat)) (2 ^ 32)) l
    else (n, c :: l)

/-- `selected_partition`, and the path behind it. -/
def selectPartition (path : List Char) : Int × List Char :=
  match path with
  | [] => (-1, [])
  | c :: l =>
    if isDigit c then
      let (n, rest) := takeDigits 0 (c :: l)
      (n, if rest.head? = some ',' then rest.tail else rest)
    else (-1, c :: l)

/-- `path_clean`: the path up to a blank, cut to the size of the array. -/
def pathClean (path : List Char) : List Char :=
  (path.take 255).takeWhile fun c => c != ' ' && c != '\t'

/-- A position in the chain: the next block, its index, and the buffer. -/
structure Pos where
  blkno : Nat
  idx : Nat
  buf : Buf

/-- The end of the chain, or of its traversal. -/
def Pos.AtEnd (p : Pos) : Prop := p.blkno = 0 ∨ p.blkno = 0xFFFFFFFF ∨ maxPartitions ≤ p.idx

instance (p : Pos) : Decidable p.AtEnd := inferInstanceAs (Decidable (_ ∨ _ ∨ _))

def Pos.next (p : Pos) (buf : Buf) : Pos := ⟨be32 buf 16, p.idx + 1, buf⟩

/-- The call of `file_system` for a partition. -/
def slice (q : Call) (path : List Char) (buf : Buf) (start : Nat) : Call :=
  { q with
    path := pathClean path
    loc := u64 (q.loc + start)
    start := start
    buf := buf
    size := blockSizeDefault }

def relabel (r : Reply) : Reply :=
  { r with ret := if r.ret = .eNoFilesys then .eUnsupportedFilesys else r.ret }

/-- A round of the chain loop, with the partition block in `buf`. -/
def visit (fs : Call → Io Reply) (q : Call) (selected : Int) (path : List Char) (p : Pos)
    (buf : Buf) : Option (Nat × Nat) → Io (Pos ⊕ Reply)
  | none => pure (.inl (p.next buf))
  | some (start, size) =>
    if selected = p.idx ∧ (q.what = .list ∨ q.what = .load) then do
      publish ⟨size, (env buf).fsBlockSize⟩ (u64 (q.loc + start))
      let r ← fs (slice q path buf start)
      pure (.inr (relabel r))
    else pure (.inl (p.next buf))

/-- A round of the chain loop after the read of the block. -/
def inspect (fs : Call → Io Reply) (q : Call) (selected : Int) (path : List Char) (p : Pos)
    (ret : Retcode) (buf : Buf) : Io (Pos ⊕ Reply) :=
  if ret ≠ .noError then pure (.inr (q.reply ret))
  else if be32 buf 0 ≠ magicPart then pure (.inr (q.reply .eNoFilesys))
  else visit fs q selected path p buf (decodePartitionRange buf)

/-- A round of the chain loop. -/
def round (d : Disk) (fs : Call → Io Reply) (q : Call) (selected : Int) (path : List Char)
    (p : Pos) : Io (Pos ⊕ Reply) :=
  if p.AtEnd then
    pure (.inr (q.reply (if selected ≥ 0 ∧ selected ≥ p.idx then .eNoFilesys else .rEnd)))
  else do
    let (ret, buf) ← filesysReadBytes d (u64 (q.loc + p.blkno * blockSizeDefault))
      blockSizeDefault p.buf
    inspect fs q selected path p ret buf

/-- `amiga_rdb` once the RDB has been read into `buf`. -/
def partitions (d : Disk) (fs : Call → Io Reply) (q : Call) (buf : Buf) : Io Reply :=
  if be32 buf 28 = 0 ∨ be32 buf 28 = 0xFFFFFFFF then pure (q.reply .eNoFilesys)
  else
    .loop (round d fs q (selectPartition q.path).1 (selectPartition q.path).2)
      ⟨be32 buf 28, 0, buf⟩

/-- `amiga_rdb` after the second read of the RDB, which is at block `b`. -/
def afterReread (d : Disk) (fs : Call → Io Reply) (q : Call) (b : Nat) (ret : Retcode)
    (buf : Buf) : Io Reply :=
  if ret ≠ .noError then pure (q.reply ret)
  else if q.what = .probe then
    pure { q.reply .rEnd with
      probed := q.probed ++ ",amiga-rdb".toList, val := u64 (q.loc + b * blockSizeDefault) }
  else partitions d fs q buf

/-- `amiga_rdb` after `find_rdb`. -/
def afterFind (d : Disk) (fs : Call → Io Reply) (q : Call) : Option Nat → Buf → Io Reply
  | none, _ => pure (q.reply .eNoFilesys)
  | some b, buf => do
    let (ret, buf) ← filesysReadBytes d (u64 (q.loc + b * blockSizeDefault)) blockSizeDefault buf
    afterReread d fs q b ret buf

def amigaRdb (d : Disk) (fs : Call → Io Reply) (q : Call) : Io Reply :=
  if q.size < blockSizeDefault then pure (q.reply .eBlocksize)
  else do
    setHint ⟨0, 0⟩
    let (rdb, buf) ← findRdb d q.loc q.buf
    afterFind d fs q rdb buf

/-- The block at a position: it reads, and is a partition block. -/
def readBlock (d : Disk) (loc : Nat) (p : Pos) (w : World) : Option (Buf × World) :=
  if p.AtEnd then none
  else
    match d.read w.reads (u64 (loc + p.blkno * blockSizeDefault)) blockSizeDefault with
    | .ok data =>
      if be32 (p.buf.copy 0 data 0 blockSizeDefault) 0 = magicPart then
        some (p.buf.copy 0 data 0 blockSizeDefault, { w with reads := w.reads + 1 })
      else none
    | .fail _ _ => none

def nextBlock (d : Disk) (loc : Nat) (x : Pos × World) : Option (Pos × World) :=
  (readBlock d loc x.1 x.2).map fun y => (x.1.next y.1, y.2)

/-- The position `n` blocks further on. -/
def chain (d : Disk) (loc : Nat) (x : Pos × World) : Nat → Option (Pos × World)
  | 0 => some x
  | n + 1 => (nextBlock d loc x).bind fun y => chain d loc y n

/-- The block of the partition `n` further on, with the state after it has been read. -/
def partition (d : Disk) (loc : Nat) (x : Pos × World) (n : Nat) : Option (Buf × World) :=
  (chain d loc x n).bind fun y => readBlock d loc y.1 y.2

theorem nextBlock_eq (h : readBlock d loc p w = some (buf, w')) :
    nextBlock d loc (p, w) = some (p.next buf, w') := by
  rw [nextBlock, h]
  rfl

theorem chain_succ (h : nextBlock d loc x = some y) (n : Nat) :
    chain d loc x (n + 1) = chain d loc y n := by
  rw [chain, h]
  rfl

theorem partition_succ (h : nextBlock d loc x = some y) (n : Nat) :
    partition d loc x (n + 1) = partition d loc y n := by
  rw [partition, partition, chain_succ h]

theorem partition_none (h : readBlock d loc p w = none) (n : Nat) :
    partition d loc (p, w) n = none := by
  cases n with
  | zero => exact h
  | succ n =>
    rw [partition, chain, nextBlock, h]
    rfl

/-- The state in which `file_system` is called for a partition. -/
def hinted (w : World) (loc : Nat) (buf : Buf) (size : Nat) : World :=
  { w with
    hint := ⟨size, (env buf).fsBlockSize⟩
    slice := loc
    log := w.log ++ [.publish ⟨size, (env buf).fsBlockSize⟩] }

/-- Every position before one that the chain reaches holds a partition block. -/
theorem partition_of_chain (h : chain d loc x n = some y) (hm : m < n) :
    ∃ buf w, partition d loc x m = some (buf, w) := by
  induction m generalizing x n with
  | zero =>
    obtain ⟨n, rfl⟩ : ∃ k, n = k + 1 := ⟨n - 1, by omega⟩
    rw [chain] at h
    obtain ⟨z, hz, -⟩ := Option.bind_eq_some_iff.1 h
    rw [nextBlock] at hz
    obtain ⟨b, hb, -⟩ := Option.map_eq_some_iff.1 hz
    exact ⟨b.1, b.2, hb⟩
  | succ m ih =>
    obtain ⟨n, rfl⟩ : ∃ k, n = k + 1 := ⟨n - 1, by omega⟩
    rw [chain] at h
    obtain ⟨z, hz, hrest⟩ := Option.bind_eq_some_iff.1 h
    rw [partition_succ hz]
    exact ih hrest (by omega)

/-- The chain has no partition block at or behind a position that holds none. -/
theorem lt_of_partition (h : chain d loc x n = some y) (hy : readBlock d loc y.1 y.2 = none)
    (hm : partition d loc x m = some z) : m < n := by
  induction n generalizing x m with
  | zero =>
    obtain rfl := Option.some.inj h
    rw [partition_none hy] at hm
    exact absurd hm (Option.some_ne_none _).symm
  | succ n ih =>
    rw [chain] at h
    obtain ⟨x', hx', hrest⟩ := Option.bind_eq_some_iff.1 h
    cases m with
    | zero => omega
    | succ m =>
      rw [partition_succ hx'] at hm
      have hlt := ih hrest hm
      omega

theorem chain_idx (h : chain d loc x n = some y) : y.1.idx = x.1.idx + n := by
  induction n generalizing x with
  | zero =>
    obtain rfl := Option.some.inj h
    rfl
  | succ n ih =>
    rw [chain] at h
    obtain ⟨z, hz, hrest⟩ := Option.bind_eq_some_iff.1 h
    rw [nextBlock] at hz
    obtain ⟨b, -, rfl⟩ := Option.map_eq_some_iff.1 hz
    rw [ih hrest]
    simp only [Pos.next]
    omega

theorem idx_lt_of_partition (h : partition d loc x n = some z) : x.1.idx + n < maxPartitions := by
  rw [partition] at h
  obtain ⟨y, hy, hread⟩ := Option.bind_eq_some_iff.1 h
  rw [← chain_idx hy]
  by_contra hle
  rw [readBlock, if_pos (.inr (.inr (Nat.not_lt.1 hle)))] at hread
  cases hread

section Round

variable (d : Disk) (fs : Call → Io Reply) (q : Call) (selected : Int) (path : List Char)

theorem visit_enters (hidx : selected = p.idx) (hwhat : q.what = .list ∨ q.what = .load) :
    Prog.Halts (visit fs q selected path p buf (some (start, size))) w x w' ↔
      ∃ r, Prog.Halts (fs (slice q path buf start)) (hinted w (u64 (q.loc + start)) buf size) r w' ∧
        x = .inr (relabel r) := by
  have hset : Prog.Halts (publish ⟨size, (env buf).fsBlockSize⟩ (u64 (q.loc + start))) w ()
      (hinted w (u64 (q.loc + start)) buf size) := .access _ _
  rw [visit, if_pos ⟨hidx, hwhat⟩, hset.bind_iff]
  constructor
  · intro h
    obtain ⟨r, w₁, hr, hpure⟩ := h.of_bind
    obtain ⟨rfl, rfl⟩ := (Prog.Halts.pure _ w₁).unique hpure
    exact ⟨r, hr, rfl⟩
  · rintro ⟨r, hr, rfl⟩
    exact hr.bind (.pure _ _)

/-- The partition at a position is entered. -/
def Enters (p : Pos) (range : Option (Nat × Nat)) : Prop :=
  range ≠ none ∧ selected = p.idx ∧ (q.what = .list ∨ q.what = .load)

theorem visit_passes (h : ¬ Enters q selected p range) (w : World) :
    Prog.Halts (visit fs q selected path p buf range) w (.inl (p.next buf)) w := by
  cases range with
  | none => exact .pure _ _
  | some range =>
    rw [visit, if_neg fun hsel => h ⟨Option.some_ne_none range, hsel⟩]
    exact .pure _ _

theorem round_end (h : p.AtEnd) (w : World) :
    Prog.Halts (round d fs q selected path p) w (.inr (q.reply
      (if selected ≥ 0 ∧ selected ≥ p.idx then .eNoFilesys else .rEnd))) w := by
  rw [round, if_pos h]
  exact .pure _ _

/-- A round at a block that does not read or is no partition block fails. -/
theorem round_fails (hend : ¬ p.AtEnd) (h : readBlock d q.loc p w = none) :
    ∃ ret w', ret ≠ .noError ∧ ret ≠ .rEnd ∧
      Prog.Halts (round d fs q selected path p) w (.inr (q.reply ret)) w' := by
  rw [readBlock, if_neg hend] at h
  rw [round, if_neg hend]
  obtain ⟨data, hdata, hread⟩ | ⟨fault, left, -, hread⟩ := filesysReadBytes_halts d
    (u64 (q.loc + p.blkno * blockSizeDefault)) blockSizeDefault p.buf w
  · rw [hdata] at h
    have hmagic : be32 (p.buf.copy 0 data 0 blockSizeDefault) 0 ≠ magicPart := fun hm => by
      simp only at h
      rw [if_pos hm] at h
      exact absurd h (Option.some_ne_none _)
    have hinspect : Prog.Halts (inspect fs q selected path p .noError
        (p.buf.copy 0 data 0 blockSizeDefault)) { w with reads := w.reads + 1 }
        (.inr (q.reply .eNoFilesys)) { w with reads := w.reads + 1 } := by
      rw [inspect, if_neg fun hne => hne rfl, if_pos hmagic]
      exact .pure _ _
    exact ⟨.eNoFilesys, _, Retcode.noConfusion, Retcode.noConfusion, hread.bind hinspect⟩
  · obtain ⟨hne, hne', -⟩ := fault.code_ne
    have hinspect : Prog.Halts (inspect fs q selected path p fault.code left)
        { w with reads := w.reads + 1 } (.inr (q.reply fault.code))
        { w with reads := w.reads + 1 } := by
      rw [inspect, if_pos hne]
      exact .pure _ _
    exact ⟨fault.code, _, hne, hne', hread.bind hinspect⟩

theorem round_visits (h : readBlock d q.loc p w = some (buf, w')) :
    Prog.Halts (round d fs q selected path p) w x w'' ↔
      Prog.Halts (visit fs q selected path p buf (decodePartitionRange buf)) w' x w'' := by
  have hend : ¬ p.AtEnd := fun hend => by
    rw [readBlock, if_pos hend] at h
    exact absurd h (Option.some_ne_none _).symm
  rw [readBlock, if_neg hend] at h
  rw [round, if_neg hend]
  obtain ⟨data, hdata, hread⟩ | ⟨fault, left, hfail, hread⟩ := filesysReadBytes_halts d
    (u64 (q.loc + p.blkno * blockSizeDefault)) blockSizeDefault p.buf w
  · rw [hdata] at h
    simp only at h
    by_cases hmagic : be32 (p.buf.copy 0 data 0 blockSizeDefault) 0 = magicPart
    · rw [if_pos hmagic] at h
      obtain ⟨rfl, rfl⟩ := Prod.mk.injEq _ _ _ _ ▸ Option.some.inj h
      rw [hread.bind_iff]
      simp only
      rw [inspect, if_neg fun hne => hne rfl, if_neg fun hne => hne hmagic]
    · rw [if_neg hmagic] at h
      exact absurd h (Option.some_ne_none _).symm
  · rw [hfail] at h
    exact absurd h (Option.some_ne_none _).symm

end Round

section Walk

variable (d : Disk) (fs : Call → Io Reply) (q : Call) (selected : Int) (path : List Char)

/-- No partition from a position on is entered. -/
def NoneEntered (x : Pos × World) : Prop :=
  ∀ n buf w, partition d q.loc x n = some (buf, w) →
    ¬ (decodePartitionRange buf ≠ none ∧ selected = x.1.idx + n ∧
      (q.what = .list ∨ q.what = .load))

/-- How the walk from a position ends: at the end of the chain, at a block that does not read or
is no partition block, or in the selected partition. -/
inductive WalkEnd (x : Pos × World) : Prop
  | atEnd (hchain : chain d q.loc x n = some (p, w)) (hend : p.AtEnd)
      (hidx : p.idx = x.1.idx + n) (hnone : NoneEntered d q selected x)
      (hrun : Prog.Halts (.loop (round d fs q selected path) x.1) x.2
        (q.reply (if selected ≥ 0 ∧ selected ≥ p.idx then .eNoFilesys else .rEnd)) w)
  | broken (hchain : chain d q.loc x n = some (p, w)) (hend : ¬ p.AtEnd)
      (hread : readBlock d q.loc p w = none) (hnone : NoneEntered d q selected x)
      (hne : ret ≠ .noError) (hne' : ret ≠ .rEnd)
      (hrun : Prog.Halts (.loop (round d fs q selected path) x.1) x.2 (q.reply ret) w')
  | entered (hpart : partition d q.loc x n = some (buf, w))
      (hrange : decodePartitionRange buf = some (start, size)) (hidx : selected = x.1.idx + n)
      (hwhat : q.what = .list ∨ q.what = .load)
      (hrun : ∀ r w', Prog.Halts (.loop (round d fs q selected path) x.1) x.2 r w' ↔
        ∃ r', Prog.Halts (fs (slice q path buf start)) (hinted w (u64 (q.loc + start)) buf size) r'
          w' ∧ r = relabel r')

theorem NoneEntered.of_next {x y : Pos × World} (hnext : nextBlock d q.loc x = some y)
    (hidx : y.1.idx = x.1.idx + 1)
    (hnone : NoneEntered d q selected y)
    (hhere : ∀ buf w, readBlock d q.loc x.1 x.2 = some (buf, w) →
      ¬ Enters q selected x.1 (decodePartitionRange buf)) : NoneEntered d q selected x := by
  intro n buf w hpart
  cases n with
  | zero => exact fun h => hhere buf w hpart ⟨h.1, by simpa using h.2.1, h.2.2⟩
  | succ n =>
    rw [partition_succ hnext] at hpart
    rintro ⟨hrange, hsel, hwhat⟩
    refine hnone n buf w hpart ⟨hrange, ?_, hwhat⟩
    rw [hsel, hidx]
    push_cast
    omega

theorem WalkEnd.step {x : Pos × World} (hread : readBlock d q.loc x.1 x.2 = some (buf, w₁))
    (hpass : ¬ Enters q selected x.1 (decodePartitionRange buf))
    (h : WalkEnd d fs q selected path (x.1.next buf, w₁)) :
    WalkEnd d fs q selected path x := by
  have hnext : nextBlock d q.loc x = some (x.1.next buf, w₁) := nextBlock_eq hread
  have hround : Prog.Halts (round d fs q selected path x.1) x.2 (.inl (x.1.next buf)) w₁ :=
    (round_visits d fs q selected path hread).2 (visit_passes fs q selected path hpass w₁)
  have hhere : ∀ buf' w', readBlock d q.loc x.1 x.2 = some (buf', w') →
      ¬ Enters q selected x.1 (decodePartitionRange buf') := by
    intro buf' w' hread'
    obtain ⟨rfl, -⟩ := Prod.mk.injEq _ _ _ _ ▸ Option.some.inj (hread.symm.trans hread')
    exact hpass
  cases h with
  | @atEnd n p w hchain hend hidx hnone hrun =>
    refine .atEnd (n := n + 1) (by rw [chain_succ hnext]; exact hchain) hend ?_
      (hnone.of_next d q selected hnext rfl hhere) (hround.loop_next hrun)
    rw [hidx]
    simp only [Pos.next]
    omega
  | @broken n p w ret w' hchain hend hblock hnone hne hne' hrun =>
    exact .broken (n := n + 1) (by rw [chain_succ hnext]; exact hchain) hend hblock
      (hnone.of_next d q selected hnext rfl hhere) hne hne' (hround.loop_next hrun)
  | @entered n buf' w start size hpart hrange hidx hwhat hrun =>
    refine .entered (n := n + 1) (by rw [partition_succ hnext]; exact hpart) hrange ?_ hwhat
      fun r w' => (hround.loop_iff).trans (hrun r w')
    rw [hidx]
    simp only [Pos.next]
    push_cast
    omega

theorem walkEnd (x : Pos × World) : WalkEnd d fs q selected path x := by
  generalize hm : maxPartitions - x.1.idx = m
  induction m generalizing x with
  | zero =>
    have hend : x.1.AtEnd := .inr (.inr (by omega))
    have hread : readBlock d q.loc x.1 x.2 = none := if_pos hend
    refine .atEnd (n := 0) rfl hend rfl (fun n buf w hpart => ?_)
      (round_end d fs q selected path hend x.2).loop_done
    rw [partition_none hread] at hpart
    exact absurd hpart (Option.some_ne_none _).symm
  | succ m ih =>
    cases hread : readBlock d q.loc x.1 x.2 with
    | none =>
      have hnone : NoneEntered d q selected x := fun n buf w hpart => by
        rw [partition_none hread] at hpart
        exact absurd hpart (Option.some_ne_none _).symm
      by_cases hend : x.1.AtEnd
      · exact .atEnd (n := 0) rfl hend rfl hnone
          (round_end d fs q selected path hend x.2).loop_done
      · obtain ⟨ret, w', hne, hne', hround⟩ := round_fails d fs q selected path hend hread
        exact .broken (n := 0) rfl hend hread hnone hne hne' hround.loop_done
    | some y =>
      obtain ⟨buf, w₁⟩ := y
      by_cases hent : Enters q selected x.1 (decodePartitionRange buf)
      · obtain ⟨hsome, hidx, hwhat⟩ := hent
        obtain ⟨range, hrange⟩ := Option.ne_none_iff_exists'.1 hsome
        refine .entered (n := 0) hread hrange hidx hwhat fun r w' => ?_
        have hround (z : Pos ⊕ Reply) (w'' : World) :
            Prog.Halts (round d fs q selected path x.1) x.2 z w'' ↔
              ∃ r', Prog.Halts (fs (slice q path buf range.1))
                (hinted w₁ (u64 (q.loc + range.1)) buf range.2) r' w'' ∧ z = .inr (relabel r') := by
          rw [round_visits d fs q selected path hread, hrange]
          exact visit_enters fs q selected path hidx hwhat
        constructor
        · intro h
          obtain hdone | ⟨p', w'', hnext, -⟩ := h.of_loop
          · obtain ⟨r', hr', heq⟩ := (hround _ _).1 hdone
            exact ⟨r', hr', Sum.inr.inj heq⟩
          · obtain ⟨r', -, heq⟩ := (hround _ _).1 hnext
            exact absurd heq Sum.inl_ne_inr
        · rintro ⟨r', hr', rfl⟩
          exact ((hround _ _).2 ⟨r', hr', rfl⟩).loop_done
      · exact .step d fs q selected path hread hent
          (ih (x.1.next buf, w₁) (by simp only [Pos.next]; omega))

end Walk

theorem findRdbFrom_ends (d : Disk) (loc n b : Nat) (buf : Buf) (w : World) :
    Prog.Ends (findRdbFrom d loc n b buf) w := by
  induction n generalizing b buf w with
  | zero => exact .pure _ _
  | succ n ih =>
    rw [findRdbFrom]
    obtain ⟨data, -, hread⟩ | ⟨fault, left, -, hread⟩ := filesysReadBytes_halts d
      (u64 (loc + b * blockSizeDefault)) blockSizeDefault buf w
    · refine hread.bind_ends ?_
      simp only
      rw [if_neg fun hne => hne rfl]
      split
      · exact .pure _ _
      · exact ih _ _ _
    · refine hread.bind_ends ?_
      simp only
      rw [if_pos fault.code_ne.1]
      exact .pure _ _

/-- The first position of the chain. -/
def first (buf : Buf) : Pos := ⟨be32 buf 28, 0, buf⟩

/-- The RDB has been found and read into `buf`, and its partition list is not empty. -/
structure Opened (d : Disk) (q : Call) (w : World) (buf : Buf) (w₀ : World) : Prop where
  size_le : blockSizeDefault ≤ q.size
  read : ∃ b buf₁ w₁, Prog.Halts (findRdb d q.loc q.buf) { w with hint := ⟨0, 0⟩ }
      (some b, buf₁) w₁ ∧
    Prog.Halts (filesysReadBytes d (u64 (q.loc + b * blockSizeDefault)) blockSizeDefault buf₁) w₁
      (.noError, buf) w₀
  list : ¬ (be32 buf 28 = 0 ∨ be32 buf 28 = 0xFFFFFFFF)

theorem Opened.unique (h : Opened d q w buf w₀) (h' : Opened d q w buf' w₀') :
    buf = buf' ∧ w₀ = w₀' := by
  obtain ⟨b, buf₁, w₁, hfind, hread⟩ := h.read
  obtain ⟨b', buf₁', w₁', hfind', hread'⟩ := h'.read
  obtain ⟨heq, rfl⟩ := hfind.unique hfind'
  obtain ⟨hb, rfl⟩ := Prod.mk.injEq _ _ _ _ ▸ heq
  obtain rfl := Option.some.inj hb
  obtain ⟨heq, rfl⟩ := hread.unique hread'
  obtain ⟨-, rfl⟩ := Prod.mk.injEq _ _ _ _ ▸ heq
  exact ⟨rfl, rfl⟩

section Load

variable (d : Disk) (fs : Call → Io Reply) (q : Call)

/-- `amiga_rdb` walks the chain of the RDB, or there is none and it fails. -/
theorem amigaRdb_opens (hwhat : q.what ≠ .probe) (w : World) :
    (∃ buf w₀, Opened d q w buf w₀ ∧ ∀ r w', Prog.Halts (amigaRdb d fs q) w r w' ↔
        Prog.Halts (.loop (round d fs q (selectPartition q.path).1 (selectPartition q.path).2)
          (first buf)) w₀ r w') ∨
      (∀ buf w₀, ¬ Opened d q w buf w₀) ∧
        ∃ ret w', Prog.Halts (amigaRdb d fs q) w (q.reply ret) w' ∧ ret ≠ .noError ∧
          ret ≠ .rEnd := by
  by_cases hsize : q.size < blockSizeDefault
  · refine .inr ⟨fun buf w₀ h => absurd h.size_le (by omega), .eBlocksize, w, ?_,
      Retcode.noConfusion, Retcode.noConfusion⟩
    rw [amigaRdb, if_pos hsize]
    exact .pure _ _
  · have hset : Prog.Halts (setHint ⟨0, 0⟩) w () { w with hint := ⟨0, 0⟩ } := .access _ _
    obtain ⟨⟨rdb, buf₁⟩, w₁, hfind⟩ := findRdbFrom_ends d q.loc 16 0 q.buf
      { w with hint := ⟨0, 0⟩ }
    have hfind' : Prog.Halts (findRdb d q.loc q.buf) { w with hint := ⟨0, 0⟩ } (rdb, buf₁) w₁ :=
      hfind
    have hrun (r : Reply) (w' : World) : Prog.Halts (amigaRdb d fs q) w r w' ↔
        Prog.Halts (afterFind d fs q rdb buf₁) w₁ r w' := by
      rw [amigaRdb, if_neg hsize, hset.bind_iff, hfind'.bind_iff]
    simp only [hrun]
    cases rdb with
    | none =>
      refine .inr ⟨fun buf w₀ h => ?_, .eNoFilesys, w₁, .pure _ _, Retcode.noConfusion,
        Retcode.noConfusion⟩
      obtain ⟨b, buf₂, w₂, hfind₂, -⟩ := h.read
      obtain ⟨heq, -⟩ := hfind'.unique hfind₂
      exact absurd (Prod.mk.injEq _ _ _ _ ▸ heq).1.symm (Option.some_ne_none b)
    | some b =>
      have hopened (buf : Buf) (w₀ : World) (h : Opened d q w buf w₀) :
          Prog.Halts (filesysReadBytes d (u64 (q.loc + b * blockSizeDefault)) blockSizeDefault
            buf₁) w₁ (.noError, buf) w₀ := by
        obtain ⟨b', buf₂, w₂, hfind₂, hread₂⟩ := h.read
        obtain ⟨heq, rfl⟩ := hfind'.unique hfind₂
        obtain ⟨hb, rfl⟩ := Prod.mk.injEq _ _ _ _ ▸ heq
        obtain rfl := Option.some.inj hb
        exact hread₂
      obtain ⟨data, -, hread⟩ | ⟨fault, left, -, hread⟩ := filesysReadBytes_halts d
        (u64 (q.loc + b * blockSizeDefault)) blockSizeDefault buf₁ w₁
      · generalize buf₁.copy 0 data 0 blockSizeDefault = buf at hread
        have hrest (r : Reply) (w' : World) : Prog.Halts (afterFind d fs q (some b) buf₁) w₁ r w' ↔
            Prog.Halts (partitions d fs q buf) { w₁ with reads := w₁.reads + 1 } r w' := by
          rw [afterFind, hread.bind_iff]
          simp only
          rw [afterReread, if_neg fun hne => hne rfl, if_neg hwhat]
        simp only [hrest]
        by_cases hlist : be32 buf 28 = 0 ∨ be32 buf 28 = 0xFFFFFFFF
        · refine .inr ⟨fun buf' w₀ h => ?_, .eNoFilesys, { w₁ with reads := w₁.reads + 1 }, ?_,
            Retcode.noConfusion, Retcode.noConfusion⟩
          · obtain ⟨heq, -⟩ := hread.unique (hopened buf' w₀ h)
            obtain ⟨-, rfl⟩ := Prod.mk.injEq _ _ _ _ ▸ heq
            exact h.list hlist
          · rw [partitions, if_pos hlist]
            exact .pure _ _
        · refine .inl ⟨buf, _, ⟨by omega, ⟨b, buf₁, w₁, hfind', hread⟩, hlist⟩, fun r w' => ?_⟩
          rw [partitions, if_neg hlist, first]
      · obtain ⟨hne, hne', -⟩ := fault.code_ne
        refine .inr ⟨fun buf w₀ h => ?_, fault.code, { w₁ with reads := w₁.reads + 1 }, ?_, hne,
          hne'⟩
        · obtain ⟨heq, -⟩ := hread.unique (hopened buf w₀ h)
          exact absurd (Prod.mk.injEq _ _ _ _ ▸ heq).1 hne
        · rw [afterFind]
          refine hread.bind ?_
          simp only
          rw [afterReread, if_pos hne]
          exact .pure _ _

/-- `file_system` is called for the partition `n` of the chain, which the path selects. -/
structure NestedCall (w : World) (n : Nat) (call : Call) (w' : World) : Prop where
  selected : (selectPartition q.path).1 = n
  slice : ∃ buf₀ w₀ buf w₁ start size, Opened d q w buf₀ w₀ ∧
    partition d q.loc (first buf₀, w₀) n = some (buf, w₁) ∧
    decodePartitionRange buf = some (start, size) ∧
    call = slice q (selectPartition q.path).2 buf start ∧
    w' = hinted w₁ (u64 (q.loc + start)) buf size

/-- A load succeeds only with the result of the nested call, and fails when there is none. -/
def LoadRight (w : World) : Prop :=
  (∀ r w', Prog.Halts (amigaRdb d fs q) w r w' → r.ret = .rEnd ∨ r.ret = .noError →
    ∃ n call w₁ r', NestedCall d q w n call w₁ ∧ Prog.Halts (fs call) w₁ r' w' ∧
      r'.ret = r.ret) ∧
    ((∀ n call w₁, ¬ NestedCall d q w n call w₁) → ∃ r w', Prog.Halts (amigaRdb d fs q) w r w' ∧
      r.ret ≠ .rEnd ∧ r.ret ≠ .noError)

/-- The whole chain reads, and the path selects none of its partitions or one with a bad
environment. -/
def Unselected (w : World) : Prop :=
  ∃ buf₀ w₀ n p w₁, Opened d q w buf₀ w₀ ∧ chain d q.loc (first buf₀, w₀) n = some (p, w₁) ∧
    p.AtEnd ∧ ((selectPartition q.path).1 < 0 ∨
      ∃ i : Nat, ∃ buf w₂, (selectPartition q.path).1 = i ∧
        partition d q.loc (first buf₀, w₀) i = some (buf, w₂) ∧ decodePartitionRange buf = none)

theorem LoadRight.of_error (h : Prog.Halts (amigaRdb d fs q) w r w') (hne : r.ret ≠ .noError)
    (hne' : r.ret ≠ .rEnd) : LoadRight d fs q w := by
  refine ⟨fun r' w'' h' hok => ?_, fun _ => ⟨r, w', h, hne', hne⟩⟩
  obtain ⟨rfl, -⟩ := h.unique h'
  exact (hok.elim hne' hne).elim

theorem readBlock_atEnd (h : p.AtEnd) (w : World) : readBlock d loc p w = none := if_pos h

theorem chain_stop_unique (h : chain d loc x n = some y) (hy : readBlock d loc y.1 y.2 = none)
    (h' : chain d loc x m = some z) (hz : readBlock d loc z.1 z.2 = none) : y = z := by
  have hnm : n = m := by
    obtain hlt | heq | hlt := Nat.lt_trichotomy n m
    · obtain ⟨buf, w, hpart⟩ := partition_of_chain h' hlt
      rw [partition, h] at hpart
      exact absurd (hy.symm.trans hpart) (Option.some_ne_none _).symm
    · exact heq
    · obtain ⟨buf, w, hpart⟩ := partition_of_chain h hlt
      rw [partition, h'] at hpart
      exact absurd (hz.symm.trans hpart) (Option.some_ne_none _).symm
  rw [hnm] at h
  exact Option.some.inj (h.symm.trans h')

theorem load_atEnd (hwhat : q.what = .load) (hop : Opened d q w buf w₀)
    (hrun : ∀ r w', Prog.Halts (amigaRdb d fs q) w r w' ↔
      Prog.Halts (.loop (round d fs q (selectPartition q.path).1 (selectPartition q.path).2)
        (first buf)) w₀ r w')
    (hchain : chain d q.loc (first buf, w₀) n = some (p, w₁)) (hend : p.AtEnd) (hidx : p.idx = n)
    (hnone : NoneEntered d q (selectPartition q.path).1 (first buf, w₀))
    (hloop : Prog.Halts (.loop (round d fs q (selectPartition q.path).1
      (selectPartition q.path).2) (first buf)) w₀ (q.reply
        (if (selectPartition q.path).1 ≥ 0 ∧ (selectPartition q.path).1 ≥ p.idx then
          .eNoFilesys else .rEnd)) w₁) :
    LoadRight d fs q w ↔ ¬ Unselected d q w := by
  have hbad (i : Nat) {b : Buf} {w₂ : World} (hi : (selectPartition q.path).1 = i)
      (hpart : partition d q.loc (first buf, w₀) i = some (b, w₂)) :
      decodePartitionRange b = none := by
    by_contra hrange
    exact hnone i b w₂ hpart ⟨hrange, by rw [hi]; simp [first], .inr hwhat⟩
  by_cases hsel : (selectPartition q.path).1 ≥ 0 ∧ (selectPartition q.path).1 ≥ p.idx
  · rw [if_pos hsel] at hloop
    refine ⟨fun _ => ?_, fun _ => .of_error d fs q ((hrun _ _).2 hloop) Retcode.noConfusion
      Retcode.noConfusion⟩
    rintro ⟨buf', w₀', m, p', w', hop', -, -, hneg | ⟨i, b, w₂, hi, hpart, -⟩⟩
    · exact absurd hsel.1 (Int.not_le.2 hneg)
    · obtain ⟨rfl, rfl⟩ := hop.unique hop'
      have hlt : i < n := lt_of_partition hchain (readBlock_atEnd d hend _) hpart
      rw [hi, hidx] at hsel
      exact absurd (Int.ofNat_le.1 hsel.2) (Nat.not_le.2 hlt)
  · rw [if_neg hsel] at hloop
    refine ⟨fun hload => ?_, fun hun => (hun ?_).elim⟩
    · obtain ⟨i, call, w', r', hnest, -, -⟩ := hload.1 _ _ ((hrun _ _).2 hloop) (.inl rfl)
      obtain ⟨buf₀, w₀', b, w₂, start, size, hop', hpart, hrange, -⟩ := hnest.slice
      obtain ⟨rfl, rfl⟩ := hop.unique hop'
      exact absurd (hrange.symm.trans (hbad i hnest.selected hpart)) (Option.some_ne_none _)
    · refine ⟨buf, w₀, n, p, w₁, hop, hchain, hend, ?_⟩
      by_cases hneg : (selectPartition q.path).1 < 0
      · exact .inl hneg
      · obtain ⟨i, hi⟩ := Int.eq_ofNat_of_zero_le (Int.not_lt.1 hneg)
        have hlt : i < n := by
          rw [hi, hidx] at hsel
          exact Nat.not_le.1 fun hle => hsel ⟨Int.natCast_nonneg i, Int.ofNat_le.2 hle⟩
        obtain ⟨b, w₂, hpart⟩ := partition_of_chain (m := i) hchain hlt
        exact .inr ⟨i, b, w₂, hi, hpart, hbad i hi hpart⟩

theorem load_iff_of_what (hwhat : q.what = .load) (w : World) :
    LoadRight d fs q w ↔ ¬ Unselected d q w := by
  obtain ⟨buf, w₀, hop, hrun⟩ | ⟨hno, ret, w', hrun, hne, hne'⟩ :=
    amigaRdb_opens d fs q (by rw [hwhat]; exact Action.noConfusion) w
  · cases walkEnd d fs q (selectPartition q.path).1 (selectPartition q.path).2 (first buf, w₀) with
    | @atEnd n p w₁ hchain hend hidx hnone hloop =>
      exact load_atEnd d fs q hwhat hop hrun hchain hend (by simpa [first] using hidx) hnone hloop
    | @broken n p w₁ ret w' hchain hend hread hnone hne hne' hloop =>
      refine ⟨fun _ => ?_, fun _ => .of_error d fs q ((hrun _ _).2 hloop) hne hne'⟩
      rintro ⟨buf', w₀', m, p', w₂, hop', hchain', hend', -⟩
      obtain ⟨rfl, rfl⟩ := hop.unique hop'
      have heq := chain_stop_unique d hchain hread hchain' (readBlock_atEnd d hend' _)
      obtain ⟨rfl, -⟩ := Prod.mk.injEq _ _ _ _ ▸ heq
      exact hend hend'
    | @entered n b w₁ start size hpart hrange hidx hw hloop =>
      have hsel : (selectPartition q.path).1 = n := by simpa [first] using hidx
      have hnest : NestedCall d q w n (slice q (selectPartition q.path).2 b start)
          (hinted w₁ (u64 (q.loc + start)) b size) :=
        ⟨hsel, buf, w₀, b, w₁, start, size, hop, hpart, hrange, rfl, rfl⟩
      refine ⟨fun _ => ?_, fun _ => ⟨fun r w' h hok => ?_, fun hno => (hno _ _ _ hnest).elim⟩⟩
      · rintro ⟨buf', w₀', m, p', w₂, hop', -, -, hneg | ⟨i, b', w₃, hi, hpart', hbad⟩⟩
        · omega
        · obtain ⟨rfl, rfl⟩ := hop.unique hop'
          obtain rfl : n = i := by omega
          obtain ⟨rfl, -⟩ := Prod.mk.injEq _ _ _ _ ▸ Option.some.inj (hpart.symm.trans hpart')
          exact absurd (hrange.symm.trans hbad) (Option.some_ne_none _)
      · obtain ⟨r', hr', rfl⟩ := (hloop _ _).1 ((hrun _ _).1 h)
        refine ⟨n, _, _, r', hnest, hr', ?_⟩
        rw [relabel] at hok ⊢
        simp only at hok ⊢
        split at hok
        · obtain hok | hok := hok <;> cases hok
        next hret => rw [if_neg hret]
  · exact ⟨fun _ ⟨buf, w₀, _, _, _, hop, _⟩ => hno buf w₀ hop,
      fun _ => .of_error d fs q hrun hne hne'⟩

end Load

/-- A disk with an RDB in block 0 and a list of one partition, in block 1. -/
def oneWord : Nat → Nat
  | 0 => magicRdsk
  | 1 => 64
  | 2 => 0xADBBAC74
  | 7 => 1
  | 128 => magicPart
  | 132 => 0xFFFFFFFF
  | _ => 0

def oneByte (i : Nat) : UInt8 := .ofNat (oneWord (i / 4) / 256 ^ (3 - i % 4))

def onePartition : Disk := (Disk.ofImage oneByte).toDisk

def blank : Call where
  what := .load
  path := []
  loc := 0
  start := 0
  buf := fun _ => 0
  size := 512
  retbuf := fun _ => 0
  probed := []
  val := 0

def boot : World := ⟨0, ⟨0, 0⟩, 0, [], []⟩

/-- A `file_system` that finds nothing. -/
def noFilesys (q : Call) : Io Reply := pure (q.reply .eNoFilesys)

theorem amigaRdb_blank : ((amigaRdb onePartition noFilesys blank).run 3 boot).map (·.1.ret) =
    some .rEnd := by decide +kernel

end Rdb

end Pegasos2.Fs
