import Pegasos2.FileStores
import Pegasos2.FsExfat

namespace Pegasos2.Fs
open Program Look
set_option autoImplicit true

namespace Exfat

/-- What `g_ex` is set to from the boot sector. -/
def lookBoot (partLoc : Nat) : Look UInt8 (Option Volume) := do
  let named ← lookSame id 3 magic
  let signature ← lookLe16 510
  let bpsShift ← lookNat 108
  let spcShift ← lookNat 109
  let fatOffset ← lookLe32 80
  let clusterHeapOffset ← lookLe32 88
  let clusterCount ← lookLe32 92
  let rootCluster ← lookLe32 96
  let v : Volume := ⟨partLoc, 2 ^ bpsShift, 2 ^ spcShift, u32 (2 ^ bpsShift * 2 ^ spcShift),
    fatOffset, clusterHeapOffset, clusterCount, rootCluster⟩
  pure (if named = true ∧ signature = 0xAA55 ∧ bpsShift = 9 ∧ spcShift ≤ 25 ∧
    v.HasCluster v.rootCluster ∧ v.bytesPerCluster ≠ 0 ∧ v.bytesPerCluster ≤ 32 * 1024
    then some v else none)

/-- The `n` code units at `p`. -/
def lookUnits (p : Nat) : Nat → Look UInt8 (List (UInt8 × UInt8))
  | 0 => pure []
  | n + 1 => do
    let lo ← peek p
    let hi ← peek (p + 1)
    let units ← lookUnits (p + 2) n
    pure ((lo, hi) :: units)

def checkedOpenVolume (d : Disk) (partLoc : Nat) (buf : Buf) : Checked World (Option Volume) := do
  let (ret, buf) ← .lift (filesysReadBytes d partLoc 512 buf)
  if ret ≠ .noError then pure none else .inspect 512 buf (lookBoot partLoc)

def checkedFatNext (d : Disk) (v : Volume) (cluster : Nat) (scratch : Buf) :
    Checked World (Nat × Buf) :=
  if v.HasCluster cluster then do
    let (ret, scratch) ← .lift (readSector d v
      (u32 (v.fatOffset + u32 (cluster * 4) / v.bytesPerSector)) scratch)
    if ret ≠ .noError then pure (endOfChain, scratch)
    else do
      let next ← .inspect 512 scratch (lookLe32 (u32 (cluster * 4) % v.bytesPerSector))
      pure (next, scratch)
  else pure (endOfChain, scratch)

/-- The copy of the entry at `off` of a sector. Of a copy only 32 bytes may be examined. -/
def checkedCopy (b : Buf) (off : Nat) : Checked World Buf := do
  let _ ← .inspect 512 b (lookBytes off 32)
  pure fun i => b (off + i)

/-- `take`, computed with `uInt`s. -/
def Collect.take (c : Collect) (nameLength : Nat) : Nat :=
  let remaining := u32 (nameLength + 2 ^ 32 - c.name.length)
  let take := min 15 remaining
  if 255 < c.name.length + take then u32 (255 + 2 ^ 32 - c.name.length) else take

def Collect.checkedAdvance (d : Disk) (v : Volume) (c : Collect) : Checked World (Bool × Collect) :=
  if c.off + 32 ≤ v.bytesPerSector then pure (true, c)
  else if c.sec + 1 < v.sectorsPerCluster then
    pure (true, { c with off := 0, sec := c.sec + 1 })
  else do
    let (clu, scratch) ← checkedFatNext d v c.clu c.scratch
    pure (decide (v.HasCluster clu), { c with off := 0, sec := 0, clu := clu, scratch := scratch })

/-- The step behind an entry that has been collected. -/
def Collect.passed (c : Collect) : Collect :=
  { c with collected := c.collected + 1, off := c.off + 32 }

/-- The entry at the position, before a stream entry has been found. -/
def Collect.checkedStream (c : Collect) (b : Buf) : Checked World Collect := do
  let type ← .inspect 512 b (lookNat c.off)
  if type = entStreamExt then do
    let stream ← checkedCopy b c.off
    pure { c.passed with stream := some stream }
  else pure c.passed

/-- The entry at the position, behind a stream entry. The buffer of the name has room for 255 code
units. -/
def Collect.checkedName (c : Collect) (b stream : Buf) : Checked World Collect := do
  let type ← .inspect 512 b (lookNat c.off)
  if type = entFileName then do
    let nameLength ← .inspect 32 stream (lookNat 3)
    Checked.require (c.name.length + c.take nameLength ≤ 255)
    let units ← .inspect 512 b (lookUnits (c.off + 2) (c.take nameLength))
    pure { c.passed with name := c.name ++ units }
  else pure c.passed

def Collect.checkedEntry (c : Collect) (b : Buf) : Checked World Collect :=
  match c.stream with
  | none => c.checkedStream b
  | some stream => c.checkedName b stream

def checkedCollectEntry (d : Disk) (stack : Buf) (v : Volume) (ok : Bool) (c : Collect) :
    Checked World (Collect ⊕ (Bool × Collect)) :=
  if ok then do
    let (ret, b) ← .lift (readSector d v (u32 (exfatClusterToSector v c.clu + c.sec)) stack)
    if ret ≠ .noError then pure (.inr (false, c))
    else do
      let c ← c.checkedEntry b
      pure (.inl c)
  else pure (.inr (false, c))

def checkedCollectRound (d : Disk) (stack : Buf) (v : Volume) (needed : Nat) (c : Collect) :
    Checked World (Collect ⊕ (Bool × Collect)) :=
  if c.collected < needed then do
    let (ok, c) ← c.checkedAdvance d v
    checkedCollectEntry d stack v ok c
  else pure (.inr (true, c))

def checkedCollectSet (d : Disk) (stack : Buf) (v : Volume) (needed cluster s off : Nat)
    (scratch : Buf) : Checked World (Bool × Collect) :=
  .loop (checkedCollectRound d stack v needed) ⟨1, cluster, s, off + 32, scratch, none, []⟩

/-- The call of `visit` for the set at a position. -/
def checkedVisitSet (visit : EntrySet → χ → Checked World (Int × χ)) (s : Sector χ)
    (scratch : Buf) : Option EntrySet → Checked World (Sector χ ⊕ (Sector χ ⊕ WalkEnd χ))
  | none => pure (.inl ⟨s.off + 32, s.cookie, scratch⟩)
  | some set => do
    let x ← visit set s.cookie
    pure (if x.1 ≠ 0 then .inr (.inr ⟨if x.1 < 0 then .eReadError else .noError, x.2, scratch⟩)
      else .inl ⟨s.off + 32, x.2, scratch⟩)

/-- The file entry at the position, with its set. -/
def checkedFile (d : Disk) (stack : Buf) (v : Volume)
    (visit : EntrySet → χ → Checked World (Int × χ)) (cluster sec : Nat) (s : Sector χ) :
    Checked World (Sector χ ⊕ (Sector χ ⊕ WalkEnd χ)) := do
  let count ← .inspect 512 s.scratch (lookNat (s.off + 1))
  if count < 2 then pure (.inl { s with off := s.off + 32 })
  else do
    let _ ← checkedCopy s.scratch s.off
    let (ok, c) ← checkedCollectSet d stack v (1 + count) cluster sec s.off s.scratch
    checkedVisitSet visit s c.scratch (c.set ok s)

def checkedEntryRound (d : Disk) (stack : Buf) (v : Volume)
    (visit : EntrySet → χ → Checked World (Int × χ)) (cluster sec : Nat) (s : Sector χ) :
    Checked World (Sector χ ⊕ (Sector χ ⊕ WalkEnd χ)) :=
  if s.off + 32 ≤ v.bytesPerSector then do
    let type ← .inspect 512 s.scratch (lookNat s.off)
    if type = entEndOfDir then pure (.inr (.inr ⟨.noError, s.cookie, s.scratch⟩))
    else if type ≠ entFile then pure (.inl { s with off := s.off + 32 })
    else checkedFile d stack v visit cluster sec s
  else pure (.inr (.inl s))

def checkedWalkEntries (d : Disk) (stack : Buf) (v : Volume)
    (visit : EntrySet → χ → Checked World (Int × χ)) (cluster sec : Nat) (cookie : χ)
    (ret : Retcode) (scratch : Buf) : Checked World (Sector χ ⊕ WalkEnd χ) :=
  if ret ≠ .noError then pure (.inr ⟨ret, cookie, scratch⟩)
  else .loop (checkedEntryRound d stack v visit cluster sec) ⟨0, cookie, scratch⟩

def checkedSectorRound (d : Disk) (stack : Buf) (v : Volume)
    (visit : EntrySet → χ → Checked World (Int × χ)) (cluster : Nat) (s : Nat × χ × Buf) :
    Checked World ((Nat × χ × Buf) ⊕ ((χ × Buf) ⊕ WalkEnd χ)) :=
  if s.1 < v.sectorsPerCluster then do
    let (ret, scratch) ← .lift (readSector d v (u32 (exfatClusterToSector v cluster + s.1)) s.2.2)
    let x ← checkedWalkEntries d stack v visit cluster s.1 s.2.1 ret scratch
    pure (sectorNext s.1 x)
  else pure (.inr (.inl s.2))

def checkedClusterNext (d : Disk) (v : Volume) (s : Walk χ) :
    (χ × Buf) ⊕ WalkEnd χ → Checked World (Walk χ ⊕ WalkEnd χ)
  | .inr e => pure (.inr e)
  | .inl (cookie, scratch) => do
    let (cluster, scratch) ← checkedFatNext d v s.cluster scratch
    pure (if cluster = endOfChain ∨ cluster < 2 then .inr ⟨.noError, cookie, scratch⟩
      else .inl ⟨cluster, s.guard + 1, cookie, scratch⟩)

def checkedClusterRound (d : Disk) (stack : Buf) (v : Volume)
    (visit : EntrySet → χ → Checked World (Int × χ)) (s : Walk χ) :
    Checked World (Walk χ ⊕ WalkEnd χ) :=
  if v.HasCluster s.cluster ∧ s.guard < 65536 then do
    let x ← .loop (checkedSectorRound d stack v visit s.cluster) (0, s.cookie, s.scratch)
    checkedClusterNext d v s x
  else pure (.inr ⟨.noError, s.cookie, s.scratch⟩)

def checkedWalkDir (d : Disk) (stack : Buf) (v : Volume)
    (visit : EntrySet → χ → Checked World (Int × χ)) (dirCluster : Nat) (cookie : χ)
    (scratch : Buf) : Checked World (WalkEnd χ) :=
  .loop (checkedClusterRound d stack v visit) ⟨dirCluster, 0, cookie, scratch⟩

/-- The fields that are printed. -/
def checkedVisitList (set : EntrySet) (cookie : List EntrySet) :
    Checked World (Int × List EntrySet) := do
  let _ ← .inspect 32 set.fileEntry (lookLe16 4)
  let _ ← .inspect 32 set.fileEntry (lookNat 20)
  let _ ← .inspect 32 set.streamEntry (lookLe32 24)
  let _ ← .inspect 32 set.streamEntry (lookLe32 28)
  pure (exfatVisitList set cookie)

def checkedVisitFind (name : List UInt8) (set : EntrySet) (c : FindCookie) :
    Checked World (Int × FindCookie) :=
  if exfatNameEq name set.name then do
    let firstCluster ← .inspect 32 set.streamEntry (lookLe32 20)
    let dataLen ← .inspect 32 set.streamEntry (lookLe32 24)
    let flags ← .inspect 32 set.streamEntry (lookNat 1)
    let szHi ← .inspect 32 set.streamEntry (lookLe32 28)
    let c' : FindCookie :=
      { c with firstCluster := firstCluster, dataLen := dataLen, flags := flags }
    pure (if szHi ≠ 0 then (-1, c') else (1, { c' with found := true }))
  else pure (0, c)

def checkedDataRound (d : Disk) (v : Volume) (cluster dataLen : Nat) (s : Nat × Copied × Buf) :
    Checked World ((Nat × Copied × Buf) ⊕ (Retcode × Copied × Buf)) :=
  if s.1 < v.sectorsPerCluster ∧ s.2.1.written < dataLen then do
    let (ret, scratch) ← .lift (readSector d v (u32 (exfatClusterToSector v cluster + s.1)) s.2.2)
    if ret ≠ .noError then pure (.inr (ret, s.2.1, scratch))
    else do
      let data ← .inspect 512 scratch
        (lookBytes 0 (min (dataLen - s.2.1.written) v.bytesPerSector))
      let c ← checkedStore dataLen s.2.1 data
      pure (.inl (s.1 + 1, c, scratch))
  else pure (.inr (.noError, s.2))

def checkedContentsNext (d : Disk) (v : Volume) (dataLen : Nat) (noFat : Bool) (s : Contents)
    (ret : Retcode) (c : Copied) (scratch : Buf) :
    Checked World (Contents ⊕ (Retcode × Copied)) :=
  if ret ≠ .noError then pure (.inr (ret, c))
  else if dataLen ≤ c.written then pure (.inr (.noError, c))
  else if noFat then pure (.inl ⟨u32 (s.cluster + 1), s.guard + 1, c, scratch⟩)
  else do
    let (cluster, scratch) ← checkedFatNext d v s.cluster scratch
    pure (if cluster = endOfChain then .inr (.noError, c)
      else .inl ⟨cluster, s.guard + 1, c, scratch⟩)

def checkedContentsRound (d : Disk) (v : Volume) (dataLen : Nat) (noFat : Bool) (s : Contents) :
    Checked World (Contents ⊕ (Retcode × Copied)) :=
  if s.copied.written < dataLen ∧ v.HasCluster s.cluster ∧ s.guard < 100000 then do
    let (ret, c, scratch) ← .loop (checkedDataRound d v s.cluster dataLen) (0, s.copied, s.scratch)
    checkedContentsNext d v dataLen noFat s ret c scratch
  else pure (.inr (.noError, s.copied))

/-- No byte is stored behind the length of the data. -/
def checkedReadContents (d : Disk) (v : Volume) (firstCluster dataLen : Nat) (noFat : Bool)
    (out scratch : Buf) : Checked World (Retcode × Copied) :=
  .loop (checkedContentsRound d v dataLen noFat) ⟨firstCluster, 0, ⟨0, out⟩, scratch⟩

def checkedLoad (d : Disk) (v : Volume) (q : Call) (e : WalkEnd FindCookie) :
    Checked World Reply :=
  if e.ret ≠ .noError then pure (q.reply e.ret)
  else if e.cookie.found then do
    let (ret, c) ← checkedReadContents d v e.cookie.firstCluster e.cookie.dataLen
      (e.cookie.flags.testBit 1) q.retbuf e.scratch
    pure (loaded q ret c)
  else pure (q.reply .eNoFile)

def checkedAct (d : Disk) (stack : Buf) (v : Volume) (q : Call) : Action → Checked World Reply
  | .probe => pure { q.reply .rEnd with probed := q.probed ++ ",exfat".toList, val := q.loc }
  | .list => do
    let _ ← checkedWalkDir d stack v checkedVisitList v.rootCluster [] stack
    pure (q.reply .rEnd)
  | .load =>
    let path := q.path.dropWhile isSep
    if path = [] then pure (q.reply .eNoFile)
    else if u32 (tail path).length = 0 then pure (q.reply .eNoFile)
    else do
      let e ← checkedWalkDir d stack v (checkedVisitFind (tail path)) v.rootCluster
        ⟨0, 0, 0, false⟩ stack
      checkedLoad d v q e

def checkedAfterOpen (d : Disk) (stack : Buf) (q : Call) : Option Volume → Checked World Reply
  | none => pure (q.reply .eNoFilesys)
  | some v => checkedAct d stack v q q.what

def checkedFsExfat (d : Disk) (stack : Buf) (q : Call) : Checked World Reply :=
  if q.size < 512 then pure (q.reply .eBlocksize)
  else do
    let v ← checkedOpenVolume d q.loc q.buf
    checkedAfterOpen d stack q v

theorem reads_boot (b : Buf) (partLoc : Nat) :
    Reads 512 b (lookBoot partLoc)
      (if BootOk partLoc b then some (volume partLoc b) else none) := by
  have hnamed : Reads 512 b (lookSame id 3 magic) (decide (bytes b 3 8 = magic)) := by
    refine ⟨inside_same (by decide), Bool.eq_iff_iff.2 ?_⟩
    rw [run_same, List.map_id, List.map_id, beq_iff_eq, decide_eq_true_iff]
    exact Iff.rfl
  apply hnamed.bind
  apply (reads_le16 b (by decide)).bind
  apply (reads_nat b (by decide)).bind
  apply (reads_nat b (by decide)).bind
  apply (reads_le32 b (by decide)).bind
  apply (reads_le32 b (by decide)).bind
  apply (reads_le32 b (by decide)).bind
  apply (reads_le32 b (by decide)).bind
  exact (Reads.pure _ b _).eq (if_congr (and_congr_left' decide_eq_true_iff) rfl rfl)

theorem openVolume_follows (d : Disk) (partLoc : Nat) (buf : Buf) :
    (checkedOpenVolume d partLoc buf).Follows (exfatOpenVolume d partLoc buf) := by
  apply (Checked.Follows.lift _).bind
  rintro ⟨ret, buf⟩
  dsimp only
  split_ifs with hret hok hok
  · exact absurd hok.1 hret
  · exact .pure none
  · exact .inspect ((reads_boot buf partLoc).eq (if_pos hok.2))
  · exact .inspect ((reads_boot buf partLoc).eq (if_neg fun h => hok ⟨not_not.1 hret, h⟩))

theorem openVolume_sectors (d : Disk) (partLoc : Nat) (buf : Buf) :
    (exfatOpenVolume d partLoc buf).Always fun x => ∀ v, x = some v → v.bytesPerSector = 512 := by
  refine Prog.Always.after fun x => ?_
  refine Prog.Always.pure fun v hv => ?_
  split_ifs at hv with hok
  obtain rfl := Option.some.inj hv
  show 2 ^ x.2.nat 108 = 2 ^ 9
  rw [hok.2.2.2.1]

section

variable {v : Volume} (hv : v.bytesPerSector = 512) (d : Disk)

include hv

theorem fatNext_follows (cluster : Nat) (scratch : Buf) :
    (checkedFatNext d v cluster scratch).Follows (exfatFatNext d v cluster scratch) := by
  rw [checkedFatNext, exfatFatNext]
  split_ifs
  · apply (Checked.Follows.lift _).bind
    rintro ⟨ret, scratch⟩
    dsimp only
    have hin : u32 (cluster * 4) % v.bytesPerSector + 4 ≤ 512 := by
      rw [hv, u32]
      omega
    split_ifs
    · exact .pure _
    · exact Checked.Follows.inspect_bind (reads_le32 scratch hin) (.pure _)
  · exact .pure _

theorem Collect.advance_follows (c : Collect) :
    (c.checkedAdvance d v).Follows (c.advance d v) := by
  rw [checkedAdvance, advance]
  split_ifs
  · exact .pure _
  · exact .pure _
  · exact (fatNext_follows hv d c.clu c.scratch).bind fun _ => .pure _

theorem Collect.advance_always (c : Collect) :
    (c.advance d v).Always fun x => x.1 = true → x.2.off + 32 ≤ 512 := by
  rw [advance]
  split_ifs with hoff
  · exact .pure fun _ => hv ▸ hoff
  · exact .pure fun _ => (by decide : 0 + 32 ≤ 512)
  · refine Prog.Always.after fun _ => ?_
    exact .pure fun _ => (by decide : 0 + 32 ≤ 512)

end

theorem Collect.advance_same (d : Disk) (v : Volume) (c : Collect) :
    (c.advance d v).Always fun x => x.2.name = c.name ∧ x.2.stream = c.stream := by
  rw [advance]
  split_ifs
  · exact .pure ⟨rfl, rfl⟩
  · exact .pure ⟨rfl, rfl⟩
  · exact Prog.Always.after fun _ => .pure ⟨rfl, rfl⟩

/-- The name is not longer than the stream entry says. -/
def Collect.Named (c : Collect) : Prop :=
  c.name.length ≤ c.stream.elim 0 fun stream => stream.nat 3

theorem Collect.Named.le {c : Collect} (h : c.Named) : c.name.length ≤ 255 := by
  rw [Named] at h
  cases hstream : c.stream with
  | none =>
    rw [hstream] at h
    exact Nat.le_trans h (Nat.zero_le _)
  | some stream =>
    rw [hstream] at h
    exact Nat.le_trans h (Nat.le_of_lt_succ (stream.nat_lt 3))

theorem Collect.take_eq {c : Collect} {stream : Buf} (h : c.name.length ≤ stream.nat 3) :
    c.take (stream.nat 3) = c.room stream := by
  have hbyte := stream.nat_lt 3
  rw [take, room, u32, u32]
  split_ifs <;> omega

theorem length_nameUnits (b : Buf) (off n : Nat) : (nameUnits b off n).length = n := by
  rw [nameUnits, List.length_map, List.length_range]

theorem nameUnits_succ (b : Buf) (off n : Nat) :
    nameUnits b off (n + 1) = (b (off + 2), b (off + 2 + 1)) :: nameUnits b (off + 2) n := by
  rw [nameUnits, nameUnits, List.range_succ_eq_map, List.map_cons, List.map_map]
  congr 1
  apply List.map_congr_left
  intro i _
  rw [Function.comp_apply, Nat.succ_mul, Nat.add_comm (i * 2) 2, Nat.add_assoc (off + 2) 2]

theorem reads_units (b : Buf) (h : off + 2 + k * 2 ≤ n) :
    Reads n b (lookUnits (off + 2) k) (nameUnits b off k) := by
  induction k generalizing off with
  | zero => exact .pure n b []
  | succ k ih =>
    rw [nameUnits_succ]
    apply (Reads.peek b (by omega)).bind
    apply (Reads.peek b (by omega)).bind
    exact (ih (by omega)).bind (.pure n b _)

theorem copy_follows (b : Buf) (h : off + 32 ≤ 512) :
    (checkedCopy b off).Follows (pure fun i => b (off + i)) :=
  Checked.Follows.inspect_bind (reads_bytes b h) (.pure _)

theorem Collect.room_le (c : Collect) (stream : Buf) : c.room stream ≤ 15 := by
  rw [room]
  omega

theorem Collect.entry_follows {c : Collect} (h : c.Named) (hoff : c.off + 32 ≤ 512) (b : Buf) :
    (c.checkedEntry b).Follows (pure (c.entry b)) := by
  rw [checkedEntry, entry]
  rw [Named] at h
  cases hstream : c.stream with
  | none =>
    show (c.checkedStream b).Follows _
    apply Checked.Follows.inspect_bind (reads_nat b (by omega))
    dsimp only
    split_ifs
    · exact (copy_follows b hoff).bind_pure (.pure _)
    · exact hstream ▸ .pure _
  | some stream =>
    rw [hstream] at h
    have hroom := c.room_le stream
    have hlen : c.name.length + c.room stream ≤ 255 := by
      have hbyte := stream.nat_lt 3
      have hle : c.name.length ≤ stream.nat 3 := h
      rw [room]
      omega
    show (c.checkedName b stream).Follows _
    apply Checked.Follows.inspect_bind (reads_nat b (by omega))
    dsimp only
    split_ifs
    · apply Checked.Follows.inspect_bind (reads_nat stream (by decide))
      rw [c.take_eq h]
      apply Checked.Follows.require_bind hlen
      exact Checked.Follows.inspect_bind (reads_units b (by omega)) (hstream ▸ .pure _)
    · exact hstream ▸ .pure _

theorem Collect.Named.entry {c : Collect} (h : c.Named) (b : Buf) : (c.entry b).Named := by
  rw [Named] at h
  rw [Collect.entry]
  cases hstream : c.stream with
  | none =>
    rw [hstream] at h
    dsimp only
    split_ifs
    · exact Nat.le_trans h (Nat.zero_le _)
    · exact Nat.le_trans h (Nat.zero_le _)
  | some stream =>
    rw [hstream] at h
    dsimp only
    split_ifs
    · show (c.name ++ nameUnits b c.off (c.room stream)).length ≤ _
      have hle : c.name.length ≤ stream.nat 3 := h
      rw [List.length_append, length_nameUnits, room, Option.elim_some]
      omega
    · exact h

theorem collectRound_named (d : Disk) (stack : Buf) (v : Volume) (needed : Nat) {c : Collect}
    (h : c.Named) :
    (collectRound d stack v needed c).Always (Sum.elim Collect.Named fun x => x.2.Named) := by
  rw [collectRound]
  split_ifs
  · refine (c.advance_same d v).bind ?_
    rintro ⟨ok, c'⟩ ⟨hname, hstream⟩
    have hc : c'.Named := by
      rw [Collect.Named, hname, hstream]
      exact h
    show (collectEntry d stack v ok c').Always _
    rw [collectEntry]
    split_ifs
    · refine Prog.Always.after fun x => ?_
      refine Prog.Always.pure ?_
      split_ifs
      · exact hc
      · exact hc.entry x.2
    · exact .pure hc
  · exact .pure h

theorem collectRound_follows (hv : v.bytesPerSector = 512) (d : Disk) (stack : Buf)
    (needed : Nat) {c : Collect} (h : c.Named) :
    (checkedCollectRound d stack v needed c).Follows (collectRound d stack v needed c) := by
  rw [checkedCollectRound, collectRound]
  split_ifs
  · refine (c.advance_follows hv d).bind_of ((c.advance_always hv d).and (c.advance_same d v)) ?_
    rintro ⟨ok, c'⟩ ⟨hoff, hname, hstream⟩
    have hc : c'.Named := by
      rw [Collect.Named, hname, hstream]
      exact h
    show Checked.Follows (checkedCollectEntry d stack v ok c') (collectEntry d stack v ok c')
    rw [checkedCollectEntry, collectEntry]
    split_ifs with hok
    · apply (Checked.Follows.lift _).bind
      rintro ⟨ret, b⟩
      dsimp only
      split_ifs
      · exact .pure _
      · exact (Collect.entry_follows hc (hoff hok) b).bind fun _ => .pure _
    · exact .pure _
  · exact .pure _

theorem collect_start (cluster s off : Nat) (scratch : Buf) :
    Collect.Named ⟨1, cluster, s, off, scratch, none, []⟩ := Nat.le_refl 0

theorem collectSet_follows (hv : v.bytesPerSector = 512) (d : Disk) (stack : Buf)
    (needed cluster s off : Nat) (scratch : Buf) :
    (checkedCollectSet d stack v needed cluster s off scratch).Follows
      (collectSet d stack v needed cluster s off scratch) :=
  .loop Collect.Named (fun _ hc => collectRound_follows hv d stack needed hc)
    (fun _ hc => fun w x w' hround => by
      have hnamed := collectRound_named d stack v needed hc w x w' hround
      cases x with
      | inl c' => exact hnamed
      | inr y => exact trivial)
    (collect_start cluster s (off + 32) scratch)

/-- The name of a set has at most 255 code units, whatever its entries say. -/
theorem collectSet_named (d : Disk) (stack : Buf) (v : Volume) (needed cluster s off : Nat)
    (scratch : Buf) :
    (collectSet d stack v needed cluster s off scratch).Always
      fun x => x.2.name.length ≤ 255 := by
  have hrun : (collectSet d stack v needed cluster s off scratch).Always fun x => x.2.Named :=
    .loop Collect.Named (fun _ hc => collectRound_named d stack v needed hc)
      (collect_start cluster s (off + 32) scratch)
  exact fun w x w' hx => (hrun w x w' hx).le

section Walk

variable {v : Volume} (hv : v.bytesPerSector = 512) (d : Disk) (stack : Buf)
  {visit : EntrySet → χ → Int × χ} {visit' : EntrySet → χ → Checked World (Int × χ)}
  (hvisit : ∀ set cookie, (visit' set cookie).Follows (pure (visit set cookie)))

include hvisit in
theorem visitSet_follows (s : Sector χ) (scratch : Buf) (set : Option EntrySet) :
    (checkedVisitSet visit' s scratch set).Follows (pure (visitSet visit s scratch set)) := by
  cases set with
  | none => exact .pure _
  | some set =>
    exact (hvisit set s.cookie).bind_pure (.pure _)

include hv hvisit

theorem entryRound_follows (cluster sec : Nat) (s : Sector χ) :
    (checkedEntryRound d stack v visit' cluster sec s).Follows
      (entryRound d stack v visit cluster sec s) := by
  rw [checkedEntryRound, entryRound]
  by_cases hoff : s.off + 32 ≤ v.bytesPerSector
  · have hin : s.off + 32 ≤ 512 := hv ▸ hoff
    rw [if_pos hoff, if_pos hoff]
    apply Checked.Follows.inspect_bind (reads_nat s.scratch (by omega))
    by_cases hend : s.scratch.nat s.off = entEndOfDir
    · rw [if_pos hend, if_pos hend]
      exact .pure _
    · rw [if_neg hend, if_neg hend]
      by_cases hfile : s.scratch.nat s.off = entFile
      · rw [if_neg (not_not_intro hfile), checkedFile]
        apply Checked.Follows.inspect_bind (reads_nat s.scratch (by omega))
        by_cases hcount : s.scratch.nat (s.off + 1) < 2
        · rw [if_pos hcount, if_pos (.inr hcount)]
          exact .pure _
        · rw [if_neg hcount, if_neg (not_or.2 ⟨not_not_intro hfile, hcount⟩)]
          apply (copy_follows s.scratch hin).bind_pure
          apply (collectSet_follows hv d stack _ cluster sec s.off s.scratch).bind
          intro x
          exact visitSet_follows hvisit s x.2.scratch (x.2.set x.1 s)
      · rw [if_pos hfile, if_pos (.inl hfile)]
        exact .pure _
  · rw [if_neg hoff, if_neg hoff]
    exact .pure _

theorem walkDir_follows (dirCluster : Nat) (cookie : χ) (scratch : Buf) :
    (checkedWalkDir d stack v visit' dirCluster cookie scratch).Follows
      (exfatWalkDir d stack v visit dirCluster cookie scratch) := by
  have hentries (cluster sec : Nat) (cookie : χ) (ret : Retcode) (scratch : Buf) :
      (checkedWalkEntries d stack v visit' cluster sec cookie ret scratch).Follows
        (walkEntries d stack v visit cluster sec cookie ret scratch) := by
    rw [checkedWalkEntries, walkEntries]
    split_ifs
    · exact .pure _
    · exact .loop_of (entryRound_follows hv d stack hvisit cluster sec) _
  have hsectors (cluster : Nat) (s : Nat × χ × Buf) :
      (checkedSectorRound d stack v visit' cluster s).Follows
        (sectorRound d stack v visit cluster s) := by
    rw [checkedSectorRound, sectorRound]
    split_ifs
    · apply (Checked.Follows.lift _).bind
      intro x
      exact (hentries cluster s.1 s.2.1 x.1 x.2).bind fun _ => .pure _
    · exact .pure _
  apply Checked.Follows.loop_of
  intro s
  rw [checkedClusterRound, clusterRound]
  split_ifs
  · apply (Checked.Follows.loop_of (hsectors s.cluster) _).bind
    intro x
    cases x with
    | inr e => exact .pure _
    | inl y => exact (fatNext_follows hv d s.cluster y.2).bind fun _ => .pure _
  · exact .pure _

end Walk

theorem visitList_follows (set : EntrySet) (cookie : List EntrySet) :
    (checkedVisitList set cookie).Follows (pure (exfatVisitList set cookie)) := by
  apply Checked.Follows.inspect_bind (reads_le16 set.fileEntry (by decide))
  apply Checked.Follows.inspect_bind (reads_nat set.fileEntry (by decide))
  apply Checked.Follows.inspect_bind (reads_le32 set.streamEntry (by decide))
  exact Checked.Follows.inspect_bind (reads_le32 set.streamEntry (by decide)) (.pure _)

theorem visitFind_follows (name : List UInt8) (set : EntrySet) (c : FindCookie) :
    (checkedVisitFind name set c).Follows (pure (exfatVisitFind name set c)) := by
  rw [checkedVisitFind, exfatVisitFind]
  by_cases hname : exfatNameEq name set.name = true
  · rw [if_pos hname, if_pos hname]
    apply Checked.Follows.inspect_bind (reads_le32 set.streamEntry (by decide))
    apply Checked.Follows.inspect_bind (reads_le32 set.streamEntry (by decide))
    apply Checked.Follows.inspect_bind (reads_nat set.streamEntry (by decide))
    apply Checked.Follows.inspect_bind (reads_le32 set.streamEntry (by decide))
    dsimp only
    split_ifs
    · exact .pure _
    · exact .pure _
  · rw [if_neg hname, if_neg hname]
    exact .pure _

theorem dataRound_follows (hv : v.bytesPerSector = 512) (d : Disk) (cluster dataLen : Nat)
    (s : Nat × Copied × Buf) :
    (checkedDataRound d v cluster dataLen s).Follows (dataRound d v cluster dataLen s) := by
  rw [checkedDataRound, dataRound]
  split_ifs with hmore
  · apply (Checked.Follows.lift _).bind
    rintro ⟨ret, scratch⟩
    dsimp only
    split_ifs
    · exact .pure _
    · rw [hv]
      exact storeBlock_follows s.2.1 scratch (Nat.le_of_lt hmore.2) _ _ (.pure _)
  · exact .pure _

theorem readContents_follows (hv : v.bytesPerSector = 512) (d : Disk)
    (firstCluster dataLen : Nat) (noFat : Bool) (out scratch : Buf) :
    (checkedReadContents d v firstCluster dataLen noFat out scratch).Follows
      (exfatReadContents d v firstCluster dataLen noFat out scratch) := by
  apply Checked.Follows.loop_of
  intro s
  rw [checkedContentsRound, contentsRound]
  split_ifs
  · apply (Checked.Follows.loop_of (dataRound_follows hv d s.cluster dataLen) _).bind
    rintro ⟨ret, c, scratch⟩
    show Checked.Follows (checkedContentsNext d v dataLen noFat s ret c scratch)
      (contentsNext d v dataLen noFat s ret c scratch)
    rw [checkedContentsNext, contentsNext]
    split_ifs
    · exact .pure _
    · exact .pure _
    · exact .pure _
    · exact (fatNext_follows hv d s.cluster scratch).bind fun _ => .pure _
  · exact .pure _

theorem act_follows (hv : v.bytesPerSector = 512) (d : Disk) (stack : Buf) (q : Call)
    (what : Action) : (checkedAct d stack v q what).Follows (act d stack v q what) := by
  cases what with
  | probe => exact .pure _
  | list => exact (walkDir_follows hv d stack visitList_follows _ _ _).bind fun _ => .pure _
  | load =>
    rw [checkedAct, act]
    split_ifs
    · exact .pure _
    · exact .pure _
    · apply (walkDir_follows hv d stack (visitFind_follows _) _ _ _).bind
      intro e
      rw [checkedLoad, load]
      split_ifs
      · exact .pure _
      · exact (readContents_follows hv d _ _ _ q.retbuf e.scratch).bind fun _ => .pure _
      · exact .pure _

theorem fsExfat_follows (d : Disk) (stack : Buf) (q : Call) :
    (checkedFsExfat d stack q).Follows (fsExfat d stack q) := by
  rw [checkedFsExfat, fsExfat]
  split_ifs
  · exact .pure _
  · refine (openVolume_follows d q.loc q.buf).bind_of (openVolume_sectors d q.loc q.buf) ?_
    intro v hv
    cases v with
    | none => exact .pure _
    | some v => exact act_follows (hv v rfl) d stack q q.what

end Exfat

end Pegasos2.Fs
