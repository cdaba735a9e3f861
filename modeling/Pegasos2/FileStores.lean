import Pegasos2.AmigaFfs
import Pegasos2.BlockReads
import Pegasos2.FsExfat

namespace Pegasos2.Fs
open Program Look
set_option autoImplicit true

/-- A round of the loop over the blocks of an extent, with the index of the block. -/
def checkedExtentRound (d : Disk) (stack : Buf) (partLoc byteSize : Nat) (x : Extent)
    (s : Nat × Copied) : Checked World ((Nat × Copied) ⊕ (Retcode × Copied)) :=
  if s.1 < x.blocks ∧ s.2.written < byteSize then do
    let (ret, dblk) ← .lift (readBlock d partLoc (u32 (x.first + s.1)) stack)
    if ret ≠ .noError then pure (.inr (ret, s.2))
    else do
      let data ← .inspect bsize dblk (lookBytes 0 (min (byteSize - s.2.written) bsize))
      let c ← checkedStore byteSize s.2 data
      pure (.inl (s.1 + 1, c))
  else pure (.inr (.noError, s.2))

def checkedReadExtent (d : Disk) (stack : Buf) (partLoc byteSize : Nat) (x : Extent)
    (c : Copied) : Checked World (Retcode × Copied) :=
  .loop (checkedExtentRound d stack partLoc byteSize x) (0, c)

def checkedChainNext (d : Disk) (stack : Buf) (partLoc byteSize : Nat) (s : Chain) :
    Except Retcode Extent → Checked World (Chain ⊕ (Retcode × Copied))
  | .error ret => pure (.inr (ret, s.copied))
  | .ok x =>
    if x.blocks = 0 then pure (.inr (.noError, s.copied))
    else do
      let (ret, c) ← checkedReadExtent d stack partLoc byteSize x s.copied
      pure (if ret ≠ .noError then .inr (ret, c) else .inl ⟨x.next, s.guard + 1, c⟩)

def checkedChainRound (d : Disk) (stack : Buf) (partLoc byteSize : Nat)
    (lookup : Nat → Checked World (Except Retcode Extent)) (s : Chain) :
    Checked World (Chain ⊕ (Retcode × Copied)) :=
  if s.copied.written < byteSize ∧ s.key ≠ 0 then
    if 65536 < s.guard + 1 then pure (.inr (.eReadError, s.copied))
    else do
      let x ← lookup s.key
      checkedChainNext d stack partLoc byteSize s x
  else pure (.inr (.noError, s.copied))

/-- The contents of the file whose first extent has the key `first`, of which no byte is stored
behind its size. -/
def checkedReadFile (d : Disk) (stack : Buf) (partLoc : Nat)
    (lookup : Nat → Checked World (Except Retcode Extent)) (first byteSize : Nat) (out : Buf) :
    Checked World (Retcode × Copied) :=
  .loop (checkedChainRound d stack partLoc byteSize lookup) ⟨first, 0, 0, out⟩

theorem storeBlock_follows {n limit : Nat} (c : Copied) (b : Buf) (h : c.written ≤ limit)
    (k : Copied → Checked World β) (q : Prog World β)
    (hk : (k (c.append limit n b)).Follows q) :
    (Checked.inspect n b (lookBytes 0 (min (limit - c.written) n)) >>= fun data =>
      checkedStore limit c data >>= k).Follows q := by
  apply Checked.Follows.inspect_bind (reads_bytes b (by omega))
  exact (store_follows c limit n b h).bind_pure hk

theorem readExtent_follows (d : Disk) (stack : Buf) (partLoc byteSize : Nat) (x : Extent)
    (c : Copied) :
    (checkedReadExtent d stack partLoc byteSize x c).Follows
      (readExtent d stack partLoc byteSize x c) := by
  apply Checked.Follows.loop_of
  intro s
  rw [checkedExtentRound, extentRound]
  split_ifs with hmore
  · apply (Checked.Follows.lift _).bind
    rintro ⟨ret, dblk⟩
    dsimp only
    split_ifs
    · exact .pure _
    · exact storeBlock_follows s.2 dblk (Nat.le_of_lt hmore.2) _ _ (.pure _)
  · exact .pure _

theorem readFile_follows {lookup : Nat → Checked World (Except Retcode Extent)}
    {lookup' : Nat → Io (Except Retcode Extent)} (h : ∀ key, (lookup key).Follows (lookup' key))
    (d : Disk) (stack : Buf) (partLoc first byteSize : Nat) (out : Buf) :
    (checkedReadFile d stack partLoc lookup first byteSize out).Follows
      (readFile d stack partLoc lookup' first byteSize out) := by
  apply Checked.Follows.loop_of
  intro s
  rw [checkedChainRound, chainRound]
  split_ifs
  · exact .pure _
  · apply (h s.key).bind
    intro x
    cases x with
    | error ret => exact .pure _
    | ok x =>
      rw [checkedChainNext, chainNext]
      split_ifs
      · exact .pure _
      · exact (readExtent_follows d stack partLoc byteSize x s.copied).bind fun _ => .pure _
  · exact .pure _

/-- What has been stored is one piece at the start of the buffer, of at most `limit` bytes. -/
def Copied.Within (out : Buf) (limit : Nat) (c : Copied) : Prop :=
  ∃ data : List UInt8, data.length ≤ limit ∧ c = (⟨0, out⟩ : Copied).store data

theorem Copied.Within.start (out : Buf) (limit : Nat) : Within out limit ⟨0, out⟩ := by
  refine ⟨[], Nat.zero_le _, congrArg (Copied.mk 0) (funext fun i => ?_)⟩
  exact (if_neg fun h => Nat.not_lt_zero i h.2).symm

theorem Copied.Within.append {c : Copied} {out : Buf} (h : c.Within out limit) (size : Nat)
    (b : Buf) : (c.append limit size b).Within out limit := by
  obtain ⟨data, hlen, rfl⟩ := h
  have hwritten : ((⟨0, out⟩ : Copied).store data).written = data.length := Nat.zero_add _
  rw [append_eq_store, hwritten, store_store]
  refine ⟨_, ?_, rfl⟩
  rw [List.length_append, length_bytes]
  omega

theorem readExtent_within (d : Disk) (stack : Buf) (partLoc : Nat) (x : Extent)
    (h : c.Within out byteSize) :
    (readExtent d stack partLoc byteSize x c).Always fun y => y.2.Within out byteSize := by
  refine Prog.Always.loop (fun s : Nat × Copied => s.2.Within out byteSize) ?_ h
  intro s hs
  rw [extentRound]
  split_ifs
  · refine Prog.Always.after fun y => ?_
    refine Prog.Always.pure ?_
    split_ifs
    · exact hs
    · exact hs.append bsize y.2
  · exact .pure hs

theorem readFile_within (d : Disk) (stack : Buf) (partLoc : Nat)
    (lookup : Nat → Io (Except Retcode Extent)) (first byteSize : Nat) (out : Buf) :
    (readFile d stack partLoc lookup first byteSize out).Always
      fun y => y.2.Within out byteSize := by
  refine Prog.Always.loop (fun s : Chain => s.copied.Within out byteSize) ?_ (.start out byteSize)
  intro s hs
  rw [chainRound]
  split_ifs
  · exact .pure hs
  · refine Prog.Always.after fun x => ?_
    cases x with
    | error ret => exact .pure hs
    | ok x =>
      rw [chainNext]
      split_ifs
      · exact .pure hs
      · refine (readExtent_within d stack partLoc x hs).bind fun y hy => ?_
        refine Prog.Always.pure ?_
        split_ifs <;> exact hy
  · exact .pure hs

namespace Ffs

theorem table_within (d : Disk) (stack : Buf) (v : Volume) (hdr : Buf)
    (h : c.Within out toRead) :
    (Prog.loop (tableRound d stack v toRead hdr) (0, c)).Always
      fun y => y.2.Within out toRead := by
  refine Prog.Always.loop (fun s : Nat × Copied => s.2.Within out toRead) ?_ h
  intro s hs
  rw [tableRound]
  split_ifs
  · exact .pure hs
  · refine Prog.Always.after fun y => ?_
    refine Prog.Always.pure ?_
    rw [tableNext]
    split_ifs
    · exact hs
    · cases payload v y.2 with
      | none => exact hs
      | some x => exact hs.append x.2 x.1
  · exact .pure hs

theorem readFileContents_within (d : Disk) (stack : Buf) (v : Volume) (hdr out : Buf)
    (maxBytes : Nat) (scratch : Buf) :
    (readFileContents d stack v hdr out maxBytes scratch).Always
      fun y => y.2.Within out (min (be32 hdr (offByteSize v.bsize)) maxBytes) := by
  refine Prog.Always.loop (fun s : Tables => s.copied.Within out
    (min (be32 hdr (offByteSize v.bsize)) maxBytes)) ?_ (.start out _)
  intro s hs
  rw [tablesRound]
  split_ifs
  · refine (table_within d stack v s.hdr hs).bind ?_
    rintro ⟨e, c⟩ hc
    cases e with
    | error ret => exact .pure hc
    | done => exact .pure hc
    | more =>
      show (tablesNext d v _ s c .more).Always _
      rw [tablesNext]
      split_ifs
      · exact .pure hc
      · refine Prog.Always.after fun y => ?_
        refine Prog.Always.pure ?_
        split_ifs <;> exact hc
  · exact .pure hs

end Ffs

namespace Exfat

theorem data_within (d : Disk) (v : Volume) (cluster : Nat) (scratch : Buf)
    (h : c.Within out dataLen) :
    (Prog.loop (dataRound d v cluster dataLen) (0, c, scratch)).Always
      fun y => y.2.1.Within out dataLen := by
  refine Prog.Always.loop (fun s : Nat × Copied × Buf => s.2.1.Within out dataLen) ?_ h
  intro s hs
  rw [dataRound]
  split_ifs
  · refine Prog.Always.after fun y => ?_
    refine Prog.Always.pure ?_
    split_ifs
    · exact hs
    · exact hs.append _ y.2
  · exact .pure hs

theorem exfatReadContents_within (d : Disk) (v : Volume) (firstCluster dataLen : Nat)
    (noFat : Bool) (out scratch : Buf) :
    (exfatReadContents d v firstCluster dataLen noFat out scratch).Always
      fun y => y.2.Within out dataLen := by
  refine Prog.Always.loop (fun s : Contents => s.copied.Within out dataLen) ?_ (.start out dataLen)
  intro s hs
  rw [contentsRound]
  split_ifs
  · refine (data_within d v s.cluster s.scratch hs).bind ?_
    rintro ⟨ret, c, scratch⟩ hc
    show (contentsNext d v dataLen noFat s ret c scratch).Always _
    rw [contentsNext]
    split_ifs
    · exact .pure hc
    · exact .pure hc
    · exact .pure hc
    · refine Prog.Always.after fun y => ?_
      refine Prog.Always.pure ?_
      split_ifs <;> exact hc
  · exact .pure hs

end Exfat

end Pegasos2.Fs
