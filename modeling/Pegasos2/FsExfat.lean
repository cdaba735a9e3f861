import Pegasos2.AmigaVolume

namespace Pegasos2.Fs
open Program
set_option autoImplicit true

namespace Exfat

def entEndOfDir : Nat := 0x00

def entFile : Nat := 0x85

def entStreamExt : Nat := 0xC0

def entFileName : Nat := 0xC1

/-- The end of a chain, as `exfat_fat_next` returns it. -/
def endOfChain : Nat := 0xFFFFFFFF

/-- `g_ex`. -/
structure Volume where
  partLoc : Nat
  bytesPerSector : Nat
  sectorsPerCluster : Nat
  bytesPerCluster : Nat
  fatOffset : Nat
  clusterHeapOffset : Nat
  clusterCount : Nat
  rootCluster : Nat

def readSector (d : Disk) (v : Volume) (sector : Nat) (buf : Buf) : Io (Retcode × Buf) :=
  filesysReadBytes d (u64 (v.partLoc + sector * v.bytesPerSector)) v.bytesPerSector buf

def magic : List UInt8 := [0x45, 0x58, 0x46, 0x41, 0x54, 0x20, 0x20, 0x20]

def volume (partLoc : Nat) (buf : Buf) : Volume where
  partLoc := partLoc
  bytesPerSector := 2 ^ buf.nat 108
  sectorsPerCluster := 2 ^ buf.nat 109
  bytesPerCluster := u32 (2 ^ buf.nat 108 * 2 ^ buf.nat 109)
  fatOffset := le32 buf 80
  clusterHeapOffset := le32 buf 88
  clusterCount := le32 buf 92
  rootCluster := le32 buf 96

/-- The cluster numbers of the volume. -/
def Volume.HasCluster (v : Volume) (cluster : Nat) : Prop :=
  2 ≤ cluster ∧ cluster ≤ u32 (v.clusterCount + 1)

instance (v : Volume) (cluster : Nat) : Decidable (v.HasCluster cluster) :=
  inferInstanceAs (Decidable (_ ∧ _))

/-- What is checked of the boot sector. -/
def BootOk (partLoc : Nat) (buf : Buf) : Prop :=
  bytes buf 3 8 = magic ∧ le16 buf 510 = 0xAA55 ∧ buf.nat 108 = 9 ∧ buf.nat 109 ≤ 25 ∧
    (volume partLoc buf).HasCluster (volume partLoc buf).rootCluster ∧
    (volume partLoc buf).bytesPerCluster ≠ 0 ∧
    (volume partLoc buf).bytesPerCluster ≤ 32 * 1024

instance (partLoc : Nat) (buf : Buf) : Decidable (BootOk partLoc buf) :=
  inferInstanceAs (Decidable (_ ∧ _))

/-- All errors are `E_NO_FILESYS` to the caller. -/
def exfatOpenVolume (d : Disk) (partLoc : Nat) (buf : Buf) : Io (Option Volume) := do
  let (ret, buf) ← filesysReadBytes d partLoc 512 buf
  pure (if ret = .noError ∧ BootOk partLoc buf then some (volume partLoc buf) else none)

/-- The next cluster, and what is in `scratch` afterwards. -/
def exfatFatNext (d : Disk) (v : Volume) (cluster : Nat) (scratch : Buf) : Io (Nat × Buf) :=
  if v.HasCluster cluster then do
    let (ret, scratch) ← readSector d v
      (u32 (v.fatOffset + u32 (cluster * 4) / v.bytesPerSector)) scratch
    pure (if ret ≠ .noError then endOfChain
      else le32 scratch (u32 (cluster * 4) % v.bytesPerSector), scratch)
  else pure (endOfChain, scratch)

def exfatClusterToSector (v : Volume) (cluster : Nat) : Nat :=
  if cluster < 2 then 0 else u32 (v.clusterHeapOffset + (cluster - 2) * v.sectorsPerCluster)

def upper (c : UInt8) : UInt8 := if 0x61 ≤ c ∧ c ≤ 0x7A then c - 0x20 else c

/-- The comparison of a component, whose length is an `uInt`, with UTF-16 code units, low byte
first. -/
def exfatNameEq (name : List UInt8) (utf16 : List (UInt8 × UInt8)) : Bool :=
  u32 name.length == utf16.length &&
    (name.take utf16.length).map (fun c => (upper c, (0 : UInt8))) ==
      utf16.map fun c => (upper c.1, c.2)

/-- `struct entry_set`. -/
structure EntrySet where
  fileEntry : Buf
  streamEntry : Buf
  name : List (UInt8 × UInt8)

/-- The variables of the loop that reads ahead for the secondary entries of a set. -/
structure Collect where
  collected : Nat
  clu : Nat
  sec : Nat
  off : Nat
  scratch : Buf
  stream : Option Buf
  name : List (UInt8 × UInt8)

/-- The step to the next entry, which may be in the next sector or cluster. It fails at the end of
the cluster chain. The FAT is read into the buffer of the directory sector. -/
def Collect.advance (d : Disk) (v : Volume) (c : Collect) : Io (Bool × Collect) :=
  if c.off + 32 ≤ v.bytesPerSector then pure (true, c)
  else if c.sec + 1 < v.sectorsPerCluster then
    pure (true, { c with off := 0, sec := c.sec + 1 })
  else do
    let (clu, scratch) ← exfatFatNext d v c.clu c.scratch
    pure (decide (v.HasCluster clu), { c with off := 0, sec := 0, clu := clu, scratch := scratch })

/-- How many of the 15 characters of a name entry are taken. -/
def Collect.room (c : Collect) (stream : Buf) : Nat :=
  min (min 15 (stream.nat 3 - c.name.length)) (255 - c.name.length)

def nameUnits (b : Buf) (off n : Nat) : List (UInt8 × UInt8) :=
  (List.range n).map fun i => (b (off + 2 + i * 2), b (off + 2 + i * 2 + 1))

/-- The entry at the position, with its sector in `b`. -/
def Collect.entry (c : Collect) (b : Buf) : Collect :=
  let c' := { c with collected := c.collected + 1, off := c.off + 32 }
  match c.stream with
  | none =>
    if b.nat c.off = entStreamExt then { c' with stream := some fun i => b (c.off + i) } else c'
  | some stream =>
    if b.nat c.off = entFileName then
      { c' with name := c.name ++ nameUnits b c.off (c.room stream) }
    else c'

/-- A round of the read-ahead, after the step to the next entry. -/
def collectEntry (d : Disk) (stack : Buf) (v : Volume) (ok : Bool) (c : Collect) :
    Io (Collect ⊕ (Bool × Collect)) :=
  if ok then do
    let (ret, b) ← readSector d v (u32 (exfatClusterToSector v c.clu + c.sec)) stack
    pure (if ret ≠ .noError then .inr (false, c) else .inl (c.entry b))
  else pure (.inr (false, c))

def collectRound (d : Disk) (stack : Buf) (v : Volume) (needed : Nat) (c : Collect) :
    Io (Collect ⊕ (Bool × Collect)) :=
  if c.collected < needed then do
    let (ok, c) ← c.advance d v
    collectEntry d stack v ok c
  else pure (.inr (true, c))

/-- The read-ahead for a set of `needed` entries, whose file entry is at `off` of sector `s` of a
cluster, and whether it has come to its end. -/
def collectSet (d : Disk) (stack : Buf) (v : Volume) (needed cluster s off : Nat) (scratch : Buf) :
    Io (Bool × Collect) :=
  .loop (collectRound d stack v needed) ⟨1, cluster, s, off + 32, scratch, none, []⟩

/-- The end of a directory walk. -/
structure WalkEnd (χ : Type) where
  ret : Retcode
  cookie : χ
  scratch : Buf

/-- What the loop over the entries of a sector carries: the offset, the cookie, and the buffer of
the sector. -/
structure Sector (χ : Type) where
  off : Nat
  cookie : χ
  scratch : Buf

/-- The set whose file entry is at the position, unless the read-ahead has failed or found no stream
entry. -/
def Collect.set (c : Collect) (ok : Bool) (s : Sector χ) : Option EntrySet :=
  if ok then c.stream.map fun stream => ⟨fun i => s.scratch (s.off + i), stream, c.name⟩ else none

/-- The call of `visit` for the set at a position. -/
def visitSet (visit : EntrySet → χ → Int × χ) (s : Sector χ) (scratch : Buf) :
    Option EntrySet → Sector χ ⊕ (Sector χ ⊕ WalkEnd χ)
  | none => .inl ⟨s.off + 32, s.cookie, scratch⟩
  | some set =>
    let x := visit set s.cookie
    if x.1 ≠ 0 then .inr (.inr ⟨if x.1 < 0 then .eReadError else .noError, x.2, scratch⟩)
    else .inl ⟨s.off + 32, x.2, scratch⟩

/-- A round of the loop over the entries of a sector. -/
def entryRound (d : Disk) (stack : Buf) (v : Volume) (visit : EntrySet → χ → Int × χ)
    (cluster sec : Nat) (s : Sector χ) : Io (Sector χ ⊕ (Sector χ ⊕ WalkEnd χ)) :=
  if s.off + 32 ≤ v.bytesPerSector then
    if s.scratch.nat s.off = entEndOfDir then
      pure (.inr (.inr ⟨.noError, s.cookie, s.scratch⟩))
    else if s.scratch.nat s.off ≠ entFile ∨ s.scratch.nat (s.off + 1) < 2 then
      pure (.inl { s with off := s.off + 32 })
    else do
      let (ok, c) ← collectSet d stack v (1 + s.scratch.nat (s.off + 1)) cluster sec s.off s.scratch
      pure (visitSet visit s c.scratch (c.set ok s))
  else pure (.inr (.inl s))

/-- The entries of a sector that has been read. -/
def walkEntries (d : Disk) (stack : Buf) (v : Volume) (visit : EntrySet → χ → Int × χ)
    (cluster sec : Nat) (cookie : χ) (ret : Retcode) (scratch : Buf) :
    Io (Sector χ ⊕ WalkEnd χ) :=
  if ret ≠ .noError then pure (.inr ⟨ret, cookie, scratch⟩)
  else .loop (entryRound d stack v visit cluster sec) ⟨0, cookie, scratch⟩

/-- A round of the loop over the sectors of a cluster, after the loop over the entries. -/
def sectorNext (sec : Nat) : Sector χ ⊕ WalkEnd χ → (Nat × χ × Buf) ⊕ ((χ × Buf) ⊕ WalkEnd χ)
  | .inl s => .inl (sec + 1, s.cookie, s.scratch)
  | .inr e => .inr (.inr e)

def sectorRound (d : Disk) (stack : Buf) (v : Volume) (visit : EntrySet → χ → Int × χ)
    (cluster : Nat) (s : Nat × χ × Buf) : Io ((Nat × χ × Buf) ⊕ ((χ × Buf) ⊕ WalkEnd χ)) :=
  if s.1 < v.sectorsPerCluster then do
    let (ret, scratch) ← readSector d v (u32 (exfatClusterToSector v cluster + s.1)) s.2.2
    let x ← walkEntries d stack v visit cluster s.1 s.2.1 ret scratch
    pure (sectorNext s.1 x)
  else pure (.inr (.inl s.2))

/-- The variables of the loop over the clusters of a directory. -/
structure Walk (χ : Type) where
  cluster : Nat
  guard : Nat
  cookie : χ
  scratch : Buf

/-- A round of the cluster loop, after the loop over the sectors. -/
def clusterNext (d : Disk) (v : Volume) (s : Walk χ) :
    (χ × Buf) ⊕ WalkEnd χ → Io (Walk χ ⊕ WalkEnd χ)
  | .inr e => pure (.inr e)
  | .inl (cookie, scratch) => do
    let (cluster, scratch) ← exfatFatNext d v s.cluster scratch
    pure (if cluster = endOfChain ∨ cluster < 2 then .inr ⟨.noError, cookie, scratch⟩
      else .inl ⟨cluster, s.guard + 1, cookie, scratch⟩)

def clusterRound (d : Disk) (stack : Buf) (v : Volume) (visit : EntrySet → χ → Int × χ)
    (s : Walk χ) : Io (Walk χ ⊕ WalkEnd χ) :=
  if v.HasCluster s.cluster ∧ s.guard < 65536 then do
    let x ← .loop (sectorRound d stack v visit s.cluster) (0, s.cookie, s.scratch)
    clusterNext d v s x
  else pure (.inr ⟨.noError, s.cookie, s.scratch⟩)

def exfatWalkDir (d : Disk) (stack : Buf) (v : Volume) (visit : EntrySet → χ → Int × χ)
    (dirCluster : Nat) (cookie : χ) (scratch : Buf) : Io (WalkEnd χ) :=
  .loop (clusterRound d stack v visit) ⟨dirCluster, 0, cookie, scratch⟩

/-- The cookie is the list of the sets that are printed. -/
def exfatVisitList (set : EntrySet) (cookie : List EntrySet) : Int × List EntrySet :=
  (0, cookie ++ [set])

/-- `struct find_cookie`, but for the name. -/
structure FindCookie where
  firstCluster : Nat
  dataLen : Nat
  flags : Nat
  found : Bool

def exfatVisitFind (name : List UInt8) (set : EntrySet) (c : FindCookie) : Int × FindCookie :=
  if exfatNameEq name set.name then
    let c' : FindCookie :=
      { c with
        firstCluster := le32 set.streamEntry 20
        dataLen := le32 set.streamEntry 24
        flags := set.streamEntry.nat 1 }
    if le32 set.streamEntry 28 ≠ 0 then (-1, c') else (1, { c' with found := true })
  else (0, c)

/-- A round of the loop over the sectors of a cluster of a file. -/
def dataRound (d : Disk) (v : Volume) (cluster dataLen : Nat) (s : Nat × Copied × Buf) :
    Io ((Nat × Copied × Buf) ⊕ (Retcode × Copied × Buf)) :=
  if s.1 < v.sectorsPerCluster ∧ s.2.1.written < dataLen then do
    let (ret, scratch) ← readSector d v (u32 (exfatClusterToSector v cluster + s.1)) s.2.2
    pure (if ret ≠ .noError then .inr (ret, s.2.1, scratch)
      else .inl (s.1 + 1, s.2.1.append dataLen v.bytesPerSector scratch, scratch))
  else pure (.inr (.noError, s.2))

/-- The variables of the loop over the clusters of a file. -/
structure Contents where
  cluster : Nat
  guard : Nat
  copied : Copied
  scratch : Buf

/-- A round of the cluster loop, after the loop over the sectors. -/
def contentsNext (d : Disk) (v : Volume) (dataLen : Nat) (noFat : Bool) (s : Contents)
    (ret : Retcode) (c : Copied) (scratch : Buf) : Io (Contents ⊕ (Retcode × Copied)) :=
  if ret ≠ .noError then pure (.inr (ret, c))
  else if dataLen ≤ c.written then pure (.inr (.noError, c))
  else if noFat then pure (.inl ⟨u32 (s.cluster + 1), s.guard + 1, c, scratch⟩)
  else do
    let (cluster, scratch) ← exfatFatNext d v s.cluster scratch
    pure (if cluster = endOfChain then .inr (.noError, c)
      else .inl ⟨cluster, s.guard + 1, c, scratch⟩)

def contentsRound (d : Disk) (v : Volume) (dataLen : Nat) (noFat : Bool) (s : Contents) :
    Io (Contents ⊕ (Retcode × Copied)) :=
  if s.copied.written < dataLen ∧ v.HasCluster s.cluster ∧ s.guard < 100000 then do
    let (ret, c, scratch) ← .loop (dataRound d v s.cluster dataLen) (0, s.copied, s.scratch)
    contentsNext d v dataLen noFat s ret c scratch
  else pure (.inr (.noError, s.copied))

def exfatReadContents (d : Disk) (v : Volume) (firstCluster dataLen : Nat) (noFat : Bool)
    (out scratch : Buf) : Io (Retcode × Copied) :=
  .loop (contentsRound d v dataLen noFat) ⟨firstCluster, 0, ⟨0, out⟩, scratch⟩

/-- The last component of a path. -/
def tail (path : List Char) : List UInt8 :=
  ((path.reverse.takeWhile fun c => !isSep c).reverse).map fun c => .ofNat c.toNat

/-- `FS_LOAD` after the directory walk. -/
def load (d : Disk) (v : Volume) (q : Call) (e : WalkEnd FindCookie) : Io Reply :=
  if e.ret ≠ .noError then pure (q.reply e.ret)
  else if e.cookie.found then do
    let (ret, c) ← exfatReadContents d v e.cookie.firstCluster e.cookie.dataLen
      (e.cookie.flags.testBit 1) q.retbuf e.scratch
    pure (loaded q ret c)
  else pure (q.reply .eNoFile)

def act (d : Disk) (stack : Buf) (v : Volume) (q : Call) : Action → Io Reply
  | .probe => pure { q.reply .rEnd with probed := q.probed ++ ",exfat".toList, val := q.loc }
  | .list => do
    let _ ← exfatWalkDir d stack v exfatVisitList v.rootCluster [] stack
    pure (q.reply .rEnd)
  | .load =>
    let path := q.path.dropWhile isSep
    if path = [] then pure (q.reply .eNoFile)
    else if u32 (tail path).length = 0 then pure (q.reply .eNoFile)
    else do
      let e ← exfatWalkDir d stack v (exfatVisitFind (tail path)) v.rootCluster ⟨0, 0, 0, false⟩
        stack
      load d v q e

def afterOpen (d : Disk) (stack : Buf) (q : Call) : Option Volume → Io Reply
  | none => pure (q.reply .eNoFilesys)
  | some v => act d stack v q q.what

/-- `stack` is what the arrays on the stack, and the static `scratch2`, hold before their first
use. -/
def fsExfat (d : Disk) (stack : Buf) (q : Call) : Io Reply :=
  if q.size < 512 then pure (q.reply .eBlocksize)
  else do
    let v ← exfatOpenVolume d q.loc q.buf
    afterOpen d stack q v

theorem readSector_total (d : Disk) (v : Volume) (sector : Nat) (buf : Buf) :
    Prog.Total (readSector d v sector buf) := Prog.Yields.access fun _ => trivial

theorem exfatFatNext_total (d : Disk) (v : Volume) (cluster : Nat) (scratch : Buf) :
    Prog.Total (exfatFatNext d v cluster scratch) := by
  rw [exfatFatNext]
  split_ifs
  · exact (readSector_total d v _ scratch).bind fun _ => .pure _
  · exact .pure _

theorem Collect.advance_yields (d : Disk) (v : Volume) (c : Collect) :
    Prog.Yields (c.advance d v) fun x => x.2.collected = c.collected := by
  rw [advance]
  split_ifs
  · exact Prog.Yields.pure rfl
  · exact Prog.Yields.pure rfl
  · apply Prog.Yields.bind (exfatFatNext_total d v c.clu c.scratch)
    intro y _
    exact Prog.Yields.pure rfl

theorem Collect.entry_collected (c : Collect) (b : Buf) :
    (c.entry b).collected = c.collected + 1 := by
  rw [entry]
  cases c.stream with
  | none => dsimp only; split_ifs <;> rfl
  | some stream => dsimp only; split_ifs <;> rfl

theorem collectSet_total (d : Disk) (stack : Buf) (v : Volume) (needed cluster s off : Nat)
    (scratch : Buf) : Prog.Total (collectSet d stack v needed cluster s off scratch) := by
  apply Prog.Total.loop (fun c => needed - c.collected)
  intro c
  rw [collectRound]
  split_ifs with hmore
  · apply Prog.Yields.bind (c.advance_yields d v)
    rintro ⟨ok, c'⟩ hc
    show Prog.Yields (collectEntry d stack v ok c') _
    rw [collectEntry]
    split_ifs
    · apply Prog.Yields.bind (readSector_total d v _ stack)
      intro y _
      apply Prog.Yields.pure
      split_ifs
      · exact trivial
      · refine ⟨trivial, ?_⟩
        have hc : c'.collected = c.collected := hc
        show needed - (c'.entry y.2).collected < _
        rw [Collect.entry_collected, hc]
        exact Nat.sub_succ_lt_self _ _ hmore
    · exact Prog.Yields.pure trivial
  · exact Prog.Yields.pure trivial

section Walk

variable (d : Disk) (stack : Buf) (v : Volume) (visit : EntrySet → χ → Int × χ)

theorem off_sub_lt (h : off + 32 ≤ n) : n - (off + 32) < n - off := by
  apply Nat.sub_lt_sub_left <;> omega

theorem visitSet_next (s : Sector χ) (scratch : Buf) (set : Option EntrySet)
    (h : s.off + 32 ≤ n) :
    Prog.Yields.Next (fun _ => True) (fun s : Sector χ => n - s.off) (n - s.off) (fun _ => True)
      (visitSet visit s scratch set) := by
  cases set with
  | none => exact ⟨trivial, off_sub_lt h⟩
  | some set =>
    rw [visitSet]
    split_ifs
    · exact trivial
    · exact trivial
    · exact ⟨trivial, off_sub_lt h⟩

theorem walkEntries_total (cluster sec : Nat) (cookie : χ) (ret : Retcode) (scratch : Buf) :
    Prog.Total (walkEntries d stack v visit cluster sec cookie ret scratch) := by
  rw [walkEntries]
  split_ifs
  · exact .pure _
  · apply Prog.Total.loop (fun s => v.bytesPerSector - s.off)
    intro s
    rw [entryRound]
    split_ifs with hroom
    · exact Prog.Yields.pure trivial
    · exact Prog.Yields.pure ⟨trivial, off_sub_lt hroom⟩
    · apply Prog.Yields.bind (collectSet_total d stack v _ cluster sec s.off s.scratch)
      rintro ⟨ok, c⟩ _
      exact Prog.Yields.pure (visitSet_next visit s c.scratch _ hroom)
    · exact Prog.Yields.pure trivial

theorem sectors_total (cluster : Nat) (s : Nat × χ × Buf) :
    Prog.Total (.loop (sectorRound d stack v visit cluster) s) := by
  apply Prog.Total.loop (fun s => v.sectorsPerCluster - s.1)
  intro s
  rw [sectorRound]
  split_ifs with hmore
  · apply Prog.Yields.bind (readSector_total d v _ s.2.2)
    rintro ⟨ret, scratch⟩ _
    apply Prog.Yields.bind (walkEntries_total d stack v visit cluster s.1 s.2.1 ret scratch)
    intro x _
    apply Prog.Yields.pure
    cases x with
    | inl s' => exact ⟨trivial, Nat.sub_succ_lt_self _ _ hmore⟩
    | inr e => exact trivial
  · exact Prog.Yields.pure trivial

theorem exfatWalkDir_total (dirCluster : Nat) (cookie : χ) (scratch : Buf) :
    Prog.Total (exfatWalkDir d stack v visit dirCluster cookie scratch) := by
  apply Prog.Total.loop (fun s => 65536 - s.guard)
  intro s
  rw [clusterRound]
  split_ifs with h
  · apply Prog.Yields.bind (sectors_total d stack v visit s.cluster _)
    intro x _
    cases x with
    | inr e => exact Prog.Yields.pure trivial
    | inl y =>
      apply Prog.Yields.bind (exfatFatNext_total d v s.cluster y.2)
      intro z _
      apply Prog.Yields.pure
      split_ifs
      · exact trivial
      · exact ⟨trivial, Nat.sub_succ_lt_self _ _ h.2⟩
  · exact Prog.Yields.pure trivial

end Walk

theorem data_total (d : Disk) (v : Volume) (cluster dataLen : Nat) (s : Nat × Copied × Buf) :
    Prog.Total (.loop (dataRound d v cluster dataLen) s) := by
  apply Prog.Total.loop (fun s => v.sectorsPerCluster - s.1)
  intro s
  rw [dataRound]
  split_ifs with hmore
  · apply Prog.Yields.bind (readSector_total d v _ s.2.2)
    intro y _
    apply Prog.Yields.pure
    split_ifs
    · exact trivial
    · exact ⟨trivial, Nat.sub_succ_lt_self _ _ hmore.1⟩
  · exact Prog.Yields.pure trivial

theorem exfatReadContents_total (d : Disk) (v : Volume) (firstCluster dataLen : Nat)
    (noFat : Bool) (out scratch : Buf) :
    Prog.Total (exfatReadContents d v firstCluster dataLen noFat out scratch) := by
  apply Prog.Total.loop (fun s => 100000 - s.guard)
  intro s
  rw [contentsRound]
  split_ifs with h
  · apply Prog.Yields.bind (data_total d v s.cluster dataLen _)
    rintro ⟨ret, c, scratch⟩ _
    show Prog.Yields (contentsNext d v dataLen noFat s ret c scratch) _
    rw [contentsNext]
    split_ifs
    · exact Prog.Yields.pure trivial
    · exact Prog.Yields.pure trivial
    · exact Prog.Yields.pure ⟨trivial, Nat.sub_succ_lt_self _ _ h.2.2⟩
    · apply Prog.Yields.bind (exfatFatNext_total d v s.cluster scratch)
      intro y _
      apply Prog.Yields.pure
      split_ifs
      · exact trivial
      · exact ⟨trivial, Nat.sub_succ_lt_self _ _ h.2.2⟩
  · exact Prog.Yields.pure trivial

theorem act_total (d : Disk) (stack : Buf) (v : Volume) (q : Call) (what : Action) :
    Prog.Total (act d stack v q what) := by
  cases what with
  | probe => exact .pure _
  | list => exact (exfatWalkDir_total d stack v _ v.rootCluster [] stack).bind fun _ => .pure _
  | load =>
    rw [act]
    split_ifs
    · exact .pure _
    · exact .pure _
    · apply (exfatWalkDir_total d stack v _ v.rootCluster _ stack).bind
      intro e
      rw [load]
      split_ifs
      · exact .pure _
      · exact (exfatReadContents_total d v _ _ _ q.retbuf e.scratch).bind fun _ => .pure _
      · exact .pure _

theorem fsExfat_total (d : Disk) (stack : Buf) (q : Call) : Prog.Total (fsExfat d stack q) := by
  rw [fsExfat]
  split_ifs
  · exact .pure _
  · have hopen : Prog.Total (exfatOpenVolume d q.loc q.buf) :=
      Prog.Total.bind (Prog.Yields.access fun _ => trivial) fun _ => .pure _
    apply hopen.bind
    intro v
    cases v with
    | none => exact .pure _
    | some v => exact act_total d stack v q q.what

end Exfat

end Pegasos2.Fs
