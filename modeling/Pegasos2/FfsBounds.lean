import Pegasos2.AmigaFfs
import Pegasos2.BlockReads

namespace Pegasos2.Fs
open Program Look
set_option autoImplicit true

namespace Ffs

/-- The length byte of the name in a header block. -/
def nameOff (bsize : Nat) (isLnfs : Bool) : Nat :=
  if isLnfs then offLnfsNac bsize else offName bsize

def lookNameEq (intl : Bool) (p len : Nat) (name : List UInt8) : Look UInt8 Bool :=
  if len = name.length then lookSame (foldCh intl) p name else pure false

/-- Block `chain`, if its name is that of the header block, or the next block of the hash chain. -/
def lookMatch (v : Volume) (name : List UInt8) (chain : Nat) : Look UInt8 (Nat ⊕ Nat) := do
  let cl ← lookNat (nameOff v.bsize v.isLnfs)
  let eq ← lookNameEq v.isIntl (nameOff v.bsize v.isLnfs + 1) cl name
  if eq then pure (.inr chain) else .inl <$> lookBe32 (offNextHash v.bsize)

/-- A block of a hash chain, with 0 if it is no header. -/
def lookHeader (v : Volume) (name : List UInt8) (chain : Nat) : Look UInt8 (Nat ⊕ Nat) := do
  let type ← lookBe32 0
  if type ≠ tHeader then pure (.inr 0) else lookMatch v name chain

/-- The name of a header block, which is printed. -/
def lookName (bsize : Nat) (isLnfs : Bool) : Look UInt8 (List UInt8) := do
  let len ← lookNat (nameOff bsize isLnfs)
  lookBytes (nameOff bsize isLnfs + 1) len

/-- The size that a listing shows of an entry. -/
def lookSize (bsize secType : Nat) : Look UInt8 Nat :=
  if secType = stFile then lookBe32 (offByteSize bsize) else pure 0

/-- An entry of a listing, and the next block of its chain. -/
def lookEntry (v : Volume) : Look UInt8 (Line × Nat) := do
  let cl ← lookNat (nameOff v.bsize v.isLnfs)
  let sec ← lookBe32 (offSecType v.bsize)
  let bsz ← lookSize v.bsize sec
  let cn ← lookBytes (nameOff v.bsize v.isLnfs + 1) cl
  let chain ← lookBe32 (offNextHash v.bsize)
  pure (⟨sec, bsz, cn⟩, chain)

/-- The part of a data block that belongs to a file of which `remaining` bytes are missing. -/
def lookPayload (v : Volume) (remaining : Nat) : Look UInt8 (Option (List UInt8)) :=
  if v.isFfs then some <$> lookBytes 0 (min remaining v.bsize)
  else do
    let type ← lookBe32 0
    if type ≠ tData then pure none
    else do
      let len ← lookBe32 0x0C
      some <$> lookBytes 0x18 (min remaining (min len (v.bsize - 0x18)))

def checkedChainRound (d : Disk) (v : Volume) (name : List UInt8) (s : Nat × Buf) :
    Checked World ((Nat × Buf) ⊕ (Nat × Buf)) :=
  if s.1 = 0 then pure (.inr (0, s.2))
  else do
    let (ret, scratch) ← .lift (v.readBlock d s.1 s.2)
    if ret ≠ .noError then pure (.inr (0, scratch))
    else do
      let x ← .inspect v.bsize scratch (lookHeader v name s.1)
      pure (x.map (·, scratch) (·, scratch))

def checkedLookupInHash (d : Disk) (v : Volume) (htBlock : Buf) (name : List UInt8)
    (scratch : Buf) : Checked World (Nat × Buf) := do
  let chain ← .inspect v.bsize htBlock (lookBe32 (htOffset + nameHash v.isIntl v.bsize name * 4))
  .loop (checkedChainRound d v name) (chain, scratch)

/-- A round of the path loop, after the search for its component. -/
def checkedPathNext (v : Volume) (rest : List Char) (next : Nat) (scratch : Buf) :
    Checked World (PathPos ⊕ (Nat × Buf)) :=
  if next = 0 then pure (.inr (0, scratch))
  else do
    let secType ← .inspect v.bsize scratch (lookBe32 (offSecType v.bsize))
    if rest = [] then pure (.inr (next, scratch))
    else if secType ≠ stUserdir ∧ secType ≠ stRoot then pure (.inr (0, scratch))
    else pure (.inl ⟨scratch, rest.tail, next, scratch⟩)

def checkedPathRound (d : Disk) (v : Volume) (s : PathPos) :
    Checked World (PathPos ⊕ (Nat × Buf)) :=
  if s.cur = [] then pure (.inr (s.currentBlock, s.scratch))
  else if component s.cur = [] then pure (.inl { s with cur := (fromSep s.cur).tail })
  else if 107 < (component s.cur).length then pure (.inr (0, s.scratch))
  else do
    let (next, scratch) ← checkedLookupInHash d v s.htBuf (component s.cur) s.scratch
    checkedPathNext v (fromSep s.cur) next scratch

def checkedWalkPath (d : Disk) (v : Volume) (path : List Char) (scratch : Buf) :
    Checked World (Nat × Buf) :=
  let path := path.dropWhile isSep
  if path = [] then pure (v.rootBlock, scratch.copy 0 v.rootbuf 0 v.bsize)
  else .loop (checkedPathRound d v) ⟨v.rootbuf, path, v.rootBlock, scratch⟩

/-- A round of the loop over the pointers of a table, after the read of a data block. -/
def checkedTableNext (v : Volume) (toRead i : Nat) (c : Copied) (ret : Retcode) (dblk : Buf) :
    Checked World ((Nat × Copied) ⊕ (TableEnd × Copied)) :=
  if ret ≠ .noError then pure (.inr (.error ret, c))
  else do
    let data ← .inspect v.bsize dblk (lookPayload v (toRead - c.written))
    data.elim (pure (.inr (.error .eReadError, c))) fun data => do
      let c ← checkedStore toRead c data
      pure (.inl (i + 1, c))

def checkedTableRound (d : Disk) (stack : Buf) (v : Volume) (toRead : Nat) (hdr : Buf)
    (s : Nat × Copied) : Checked World ((Nat × Copied) ⊕ (TableEnd × Copied)) :=
  if s.1 < dbMax v.bsize ∧ s.2.written < toRead then do
    let blkptr ← .inspect v.bsize hdr (lookBe32 (dbHighOff v.bsize - s.1 * 4))
    if blkptr = 0 then pure (.inr (.done, s.2))
    else do
      let (ret, dblk) ← .lift (v.readBlock d blkptr stack)
      checkedTableNext v toRead s.1 s.2 ret dblk
  else pure (.inr (.more, s.2))

/-- A round of the loop over the tables, after the loop over the pointers. -/
def checkedTablesNext (d : Disk) (v : Volume) (toRead : Nat) (s : Tables) (c : Copied) :
    TableEnd → Checked World (Tables ⊕ (Retcode × Copied))
  | .error ret => pure (.inr (ret, c))
  | .done => pure (.inr (.noError, c))
  | .more => do
    let ext ← .inspect v.bsize s.hdr (lookBe32 (offExtension v.bsize))
    if ext = 0 ∨ toRead ≤ c.written then pure (.inr (.noError, c))
    else do
      let (ret, scratch) ← .lift (v.readBlock d ext s.scratch)
      if ret ≠ .noError then pure (.inr (ret, c))
      else do
        let type ← .inspect v.bsize scratch (lookBe32 0)
        if type ≠ tList then pure (.inr (.eReadError, c)) else pure (.inl ⟨scratch, c, scratch⟩)

def checkedTablesRound (d : Disk) (stack : Buf) (v : Volume) (toRead : Nat) (s : Tables) :
    Checked World (Tables ⊕ (Retcode × Copied)) :=
  if s.copied.written < toRead then do
    let (e, c) ← .loop (checkedTableRound d stack v toRead s.hdr) (0, s.copied)
    checkedTablesNext d v toRead s c e
  else pure (.inr (.noError, s.copied))

/-- No byte is stored behind the size in the header. -/
def checkedReadFileContents (d : Disk) (stack : Buf) (v : Volume) (hdr out : Buf)
    (maxBytes : Nat) (scratch : Buf) : Checked World (Retcode × Copied) := do
  let byteSize ← .inspect v.bsize hdr (lookBe32 (offByteSize v.bsize))
  .loop (checkedTablesRound d stack v (min byteSize maxBytes)) ⟨hdr, ⟨0, out⟩, scratch⟩

def checkedListRound (d : Disk) (v : Volume) (s : Nat × Listing) :
    Checked World ((Nat × Listing) ⊕ (Bool × Listing)) :=
  if s.1 = 0 then pure (.inr (true, s.2))
  else do
    let (ret, scratch) ← .lift (v.readBlock d s.1 s.2.scratch)
    if ret ≠ .noError then pure (.inr (false, ⟨s.2.lines, scratch⟩))
    else do
      let (line, chain) ← .inspect v.bsize scratch (lookEntry v)
      pure (.inl (chain, ⟨s.2.lines ++ [line], scratch⟩))

def checkedBucketRound (d : Disk) (v : Volume) (dirBlock : Buf) (s : Nat × Listing) :
    Checked World ((Nat × Listing) ⊕ Listing) :=
  if s.1 < htEntries v.bsize then do
    let chain ← .inspect v.bsize dirBlock (lookBe32 (htOffset + s.1 * 4))
    let (ok, l) ← .loop (checkedListRound d v) (chain, s.2)
    pure (if ok then .inl (s.1 + 1, l) else .inr l)
  else pure (.inr s.2)

def checkedListDirectory (d : Disk) (v : Volume) (dirBlock scratch : Buf) :
    Checked World Listing := .loop (checkedBucketRound d v dirBlock) (0, ⟨[], scratch⟩)

/-- The block sizes that the reader adopts. -/
def Adopted (bsize : Nat) : Prop := bsizeDefault ≤ bsize ∧ bsize ≤ maxBsize

theorem fsBsize_adopted (hint : Hint) : Adopted (fsBsize hint) := by
  rw [fsBsize]
  split_ifs with h
  · exact h
  · exact ⟨Nat.le_refl 512, show 512 ≤ 4096 by omega⟩

theorem Adopted.le (h : Adopted n) : 512 ≤ n := h.1

theorem nameOff_lt (h : Adopted n) (isLnfs : Bool) : nameOff n isLnfs + 80 ≤ n := by
  have hmin := h.le
  unfold nameOff offLnfsNac offName
  split_ifs <;> omega

/-- The name in a header block ends in the block. -/
def NameFits (bsize : Nat) (isLnfs : Bool) (b : Buf) : Prop :=
  nameOff bsize isLnfs + 1 + b.nat (nameOff bsize isLnfs) ≤ bsize

instance (bsize : Nat) (isLnfs : Bool) (b : Buf) : Decidable (NameFits bsize isLnfs b) :=
  inferInstanceAs (Decidable (_ ≤ _))

/-- The comparison of the name in a header block with `name` ends in the block: the name does, has
another length, or differs before the end of the block. -/
def ComparisonFits (v : Volume) (name : List UInt8) (b : Buf) : Prop :=
  b.nat (nameOff v.bsize v.isLnfs) = name.length →
    NameFits v.bsize v.isLnfs b ∨
      (bytes b (nameOff v.bsize v.isLnfs + 1) (v.bsize - (nameOff v.bsize v.isLnfs + 1))).map
        (foldCh v.isIntl) ≠
      (name.take (v.bsize - (nameOff v.bsize v.isLnfs + 1))).map (foldCh v.isIntl)

theorem nameEq_examines (intl : Bool) (b : Buf) (name : List UInt8) (len : Nat) (h : p ≤ n) :
    Examines n b (lookNameEq intl p len name) (len = name.length → p + len ≤ n ∨
        (bytes b p (n - p)).map (foldCh intl) ≠ (name.take (n - p)).map (foldCh intl))
      (nameEq intl (bytes b p len) name) := by
  rw [lookNameEq, nameEq, length_bytes]
  split_ifs with hlen
  · refine ⟨?_, ?_⟩
    · rw [inside_same_iff h, hlen]
      exact ⟨fun hin _ => hin, fun hin => hin rfl⟩
    · rw [run_same, hlen, beq_self_eq_true, Bool.true_and]
  · rw [beq_false_of_ne hlen, Bool.false_and]
    exact (Reads.pure n b false).examines fun heq => absurd heq hlen

theorem match_examines (h : Adopted v.bsize) (b : Buf) (name : List UInt8) (chain : Nat) :
    Examines v.bsize b (lookMatch v name chain) (ComparisonFits v name b)
      (if nameEq v.isIntl (extractName v.bsize v.isLnfs b) name then .inr chain
        else .inl (be32 b (offNextHash v.bsize))) := by
  have hmin := h.le
  have hname := nameOff_lt h v.isLnfs
  apply Examines.after (reads_nat b (by omega))
  apply (nameEq_examines v.isIntl b name _ (by omega)).bind
  exact Reads.ite (fun _ => .pure _ b _) fun _ =>
    (reads_be32 b (by unfold offNextHash; omega)).map _

theorem header_examines (h : Adopted v.bsize) (b : Buf) (name : List UInt8) (chain : Nat) :
    Examines v.bsize b (lookHeader v name chain) (be32 b 0 = tHeader → ComparisonFits v name b)
      (if be32 b 0 ≠ tHeader then .inr 0
        else if nameEq v.isIntl (extractName v.bsize v.isLnfs b) name then .inr chain
        else .inl (be32 b (offNextHash v.bsize))) := by
  have hmin := h.le
  apply Examines.after (reads_be32 b (by omega))
  split_ifs with htype
  · exact (Reads.pure _ b _).examines fun hb => absurd hb htype
  all_goals
    have hmatch := match_examines h b name chain
  · apply hmatch.congr ⟨fun hfits _ => hfits, fun hfits => hfits (not_not.1 htype)⟩
    rw [if_pos (by assumption)]
  · apply hmatch.congr ⟨fun hfits _ => hfits, fun hfits => hfits (not_not.1 htype)⟩
    rw [if_neg (by assumption)]

theorem bytes_examines (b : Buf) (p k : Nat) (h : p ≤ n) :
    Examines n b (lookBytes p k) (p + k ≤ n) (bytes b p k) := by
  refine ⟨?_, run_bytes b p k⟩
  refine ⟨fun hin => ?_, fun hle => (reads_bytes b hle).1⟩
  induction k generalizing p with
  | zero => exact h
  | succ k ih =>
    obtain ⟨hlt, hrest⟩ := inside_peek_bind.1 hin
    have := ih (p + 1) hlt (inside_bind.1 hrest).1
    omega

theorem name_examines (h : Adopted n) (isLnfs : Bool) (b : Buf) :
    Examines n b (lookName n isLnfs) (NameFits n isLnfs b) (extractName n isLnfs b) := by
  have hname := nameOff_lt h isLnfs
  apply Examines.after (reads_nat b (by omega))
  exact bytes_examines b _ _ (by omega)

theorem entry_examines (h : Adopted v.bsize) (b : Buf) :
    Examines v.bsize b (lookEntry v) (NameFits v.bsize v.isLnfs b)
      (line v b, be32 b (offNextHash v.bsize)) := by
  have hmin := h.le
  have hname := nameOff_lt h v.isLnfs
  have hsize : Reads v.bsize b (lookSize v.bsize (be32 b (offSecType v.bsize)))
      (if be32 b (offSecType v.bsize) = stFile then be32 b (offByteSize v.bsize) else 0) := by
    rw [lookSize]
    apply Reads.ite
    · intro _
      exact reads_be32 b (by unfold offByteSize; omega)
    · intro _
      exact .pure _ b 0
  apply Examines.after (reads_nat b (by omega))
  apply Examines.after (reads_be32 b (by unfold offSecType; omega))
  apply Examines.after hsize
  apply (bytes_examines b _ _ (by omega)).bind
  exact (reads_be32 b (by unfold offNextHash; omega)).bind (.pure _ b _)

theorem lookPayload_reads (h : Adopted v.bsize) (b : Buf) (remaining : Nat) :
    Reads v.bsize b (lookPayload v remaining) ((payload v b).map fun x =>
      bytes x.1 0 (min remaining x.2)) := by
  have hmin := h.le
  have hshift (n : Nat) : bytes (fun i => b (0x18 + i)) 0 n = bytes b 0x18 n := by
    simp only [bytes, Nat.zero_add]
  rw [lookPayload, payload]
  split_ifs with hffs htype
  · exact (reads_bytes b (by omega)).map some
  · exact (reads_be32 b (by omega)).bind (by rw [if_pos htype]; exact .pure _ b none)
  · apply (reads_be32 b (by omega)).bind
    rw [if_neg htype]
    apply (reads_be32 b (by omega)).bind
    exact ((reads_bytes b (by omega)).map some).eq (congrArg some (hshift _).symm)

theorem tableNext_follows (h : Adopted v.bsize) (i : Nat) (c : Copied) (ret : Retcode)
    (dblk : Buf) (hc : c.written ≤ toRead) :
    (checkedTableNext v toRead i c ret dblk).Follows (pure (tableNext v toRead i c ret dblk)) := by
  rw [checkedTableNext, tableNext]
  split_ifs with hret
  · exact .pure _
  · apply Checked.Follows.inspect_bind (lookPayload_reads h dblk _)
    cases payload v dblk with
    | none => exact .pure _
    | some x => exact (store_follows c toRead x.2 x.1 hc).bind fun _ => .pure _

theorem tableRound_follows (h : Adopted v.bsize) (d : Disk) (stack hdr : Buf) (toRead : Nat)
    (s : Nat × Copied) :
    (checkedTableRound d stack v toRead hdr s).Follows (tableRound d stack v toRead hdr s) := by
  have hmin := h.le
  rw [checkedTableRound, tableRound]
  refine .ite (fun hmore => ?_) fun _ => .pure _
  apply Checked.Follows.inspect_bind (reads_be32 hdr (by unfold dbHighOff; omega))
  refine .ite (fun _ => .pure _) fun _ => ?_
  apply (Checked.Follows.lift (v.readBlock d _ stack)).bind
  intro x
  exact tableNext_follows h s.1 s.2 x.1 x.2 (Nat.le_of_lt hmore.2)

theorem tablesNext_follows (h : Adopted v.bsize) (d : Disk) (toRead : Nat) (s : Tables)
    (c : Copied) (e : TableEnd) :
    (checkedTablesNext d v toRead s c e).Follows (tablesNext d v toRead s c e) := by
  have hmin := h.le
  cases e with
  | error ret => exact .pure _
  | done => exact .pure _
  | more =>
    apply Checked.Follows.inspect_bind (reads_be32 s.hdr (by unfold offExtension; omega))
    rw [tablesNext]
    refine .ite (fun _ => .pure _) fun _ => ?_
    apply (Checked.Follows.lift (v.readBlock d _ s.scratch)).bind
    rintro ⟨ret, scratch⟩
    refine .ite_pure (fun _ => .pure _) fun _ => ?_
    apply Checked.Follows.inspect_bind (reads_be32 scratch (by omega))
    exact .ite_pure (fun _ => .pure _) fun _ => .pure _

theorem readFileContents_follows (h : Adopted v.bsize) (d : Disk) (stack hdr out : Buf)
    (maxBytes : Nat) (scratch : Buf) :
    (checkedReadFileContents d stack v hdr out maxBytes scratch).Follows
      (readFileContents d stack v hdr out maxBytes scratch) := by
  have hmin := h.le
  apply Checked.Follows.inspect_bind (reads_be32 hdr (by unfold offByteSize; omega))
  apply Checked.Follows.loop_of
  intro s
  rw [checkedTablesRound, tablesRound]
  split_ifs
  · apply (Checked.Follows.loop_of (tableRound_follows h d stack s.hdr _) _).bind
    intro x
    exact tablesNext_follows h d _ s x.2 x.1
  · exact .pure _

theorem pathNext_follows (h : Adopted v.bsize) (rest : List Char) (next : Nat) (scratch : Buf) :
    (checkedPathNext v rest next scratch).Follows (pure (PathPos.next v rest next scratch)) := by
  have hmin := h.le
  rw [checkedPathNext, PathPos.next]
  refine .ite_pure (fun _ => .pure _) fun _ => ?_
  apply Checked.Follows.inspect_bind (reads_be32 scratch (by unfold offSecType; omega))
  refine .ite_pure (fun _ => .pure _) fun _ => ?_
  exact .ite_pure (fun _ => .pure _) fun _ => .pure _

theorem chainRound_tracks (h : Adopted v.bsize) (d : Disk) (name : List UInt8) (s : Nat × Buf) :
    (checkedChainRound d v name s).Tracks (chainRound d v name s) := by
  rw [checkedChainRound, chainRound]
  split_ifs
  · exact .of_follows (.pure _)
  · apply (Checked.Tracks.of_follows (.lift _)).bind
    rintro ⟨ret, b⟩
    dsimp only
    by_cases hret : ret = .noError
    · rw [if_neg (not_not_intro hret)]
      apply Checked.Tracks.inspect_bind
      rw [(header_examines h b name s.1).2]
      by_cases htype : be32 b 0 = tHeader
      · rw [if_neg (not_not_intro htype),
          if_neg (not_or.2 ⟨not_not_intro hret, not_not_intro htype⟩)]
        split_ifs <;> exact .of_follows (.pure _)
      · rw [if_pos htype, if_pos (.inr htype)]
        exact .of_follows (.pure _)
    · rw [if_pos hret, if_pos (.inl hret)]
      exact .of_follows (.pure _)

theorem lookupInHash_tracks (h : Adopted v.bsize) (d : Disk) (htBlock : Buf) (name : List UInt8)
    (scratch : Buf) :
    (checkedLookupInHash d v htBlock name scratch).Tracks
      (lookupInHash d v htBlock name scratch) := by
  apply Checked.Tracks.inspect_bind
  rw [run_be32]
  exact .loop (chainRound_tracks h d name) _

theorem pathRound_tracks (h : Adopted v.bsize) (d : Disk) (s : PathPos) :
    (checkedPathRound d v s).Tracks (pathRound d v s) := by
  rw [checkedPathRound, pathRound]
  split_ifs
  · exact .of_follows (.pure _)
  · exact .of_follows (.pure _)
  · exact .of_follows (.pure _)
  · apply (lookupInHash_tracks h d s.htBuf _ s.scratch).bind
    intro x
    exact .of_follows (pathNext_follows h _ x.1 x.2)

theorem listRound_tracks (h : Adopted v.bsize) (d : Disk) (s : Nat × Listing) :
    (checkedListRound d v s).Tracks (listRound d v s) := by
  rw [checkedListRound, listRound]
  split_ifs
  · exact .of_follows (.pure _)
  · apply (Checked.Tracks.of_follows (.lift _)).bind
    rintro ⟨ret, b⟩
    dsimp only
    split_ifs
    · exact .of_follows (.pure _)
    · apply Checked.Tracks.inspect_bind
      rw [(entry_examines h b).2]
      exact .of_follows (.pure _)

theorem bucketRound_tracks (h : Adopted v.bsize) (d : Disk) (dirBlock : Buf) (s : Nat × Listing) :
    (checkedBucketRound d v dirBlock s).Tracks (bucketRound d v dirBlock s) := by
  rw [checkedBucketRound, bucketRound]
  split_ifs
  · apply Checked.Tracks.inspect_bind
    rw [run_be32]
    exact (Checked.Tracks.loop (listRound_tracks h d) _).bind fun _ => .of_follows (.pure _)
  · exact .of_follows (.pure _)

/-- A block of a hash chain that the search for `name` reads, from block `s.1` on. -/
def ChainRead (d : Disk) (v : Volume) (name : List UInt8) (s : Nat × Buf) (w : World) (b : Buf) :
    Prop :=
  ∃ t w₁ w₂, Prog.Comes (chainRound d v name) s w t w₁ ∧ t.1 ≠ 0 ∧
    Prog.Halts (v.readBlock d t.1 t.2) w₁ (.noError, b) w₂

/-- The comparisons of a search in a hash table end in their blocks. -/
def SearchFits (d : Disk) (v : Volume) (htBlock : Buf) (name : List UInt8) (scratch : Buf)
    (w : World) : Prop :=
  ∀ b, ChainRead d v name (be32 htBlock (htOffset + nameHash v.isIntl v.bsize name * 4), scratch)
    w b → be32 b 0 = tHeader → ComparisonFits v name b

theorem chainRound_breaks (h : Adopted v.bsize) (d : Disk) (name : List UInt8) (s : Nat × Buf)
    (w : World) :
    (checkedChainRound d v name s).Breaks w ↔ s.1 ≠ 0 ∧ ∃ b w',
      Prog.Halts (v.readBlock d s.1 s.2) w (.noError, b) w' ∧
        ¬ (be32 b 0 = tHeader → ComparisonFits v name b) := by
  rw [checkedChainRound]
  split_ifs with hend
  · exact iff_of_false ((Checked.Follows.pure _).not_breaks w) fun hs => hs.1 hend
  · rw [and_iff_right hend]
    refine (breaks_read fun x hx => ⟨_, if_pos hx⟩).trans
      (exists_congr fun b => exists_congr fun w' => and_congr_right fun _ => ?_)
    show Checked.Breaks (if Retcode.noError ≠ .noError then _ else _) w' ↔ _
    rw [if_neg (not_not_intro rfl)]
    exact Checked.breaks_inspect_pure.trans (not_congr (header_examines h b name s.1).1)

theorem lookupInHash_breaks_iff (h : Adopted v.bsize) (d : Disk) (htBlock : Buf)
    (name : List UInt8) (scratch : Buf) (w : World) :
    ¬ (checkedLookupInHash d v htBlock name scratch).Breaks w ↔
      SearchFits d v htBlock name scratch w := by
  have hslot : Reads v.bsize htBlock
      (lookBe32 (htOffset + nameHash v.isIntl v.bsize name * 4)) _ :=
    reads_be32 htBlock (slot_le h.le (nameHash_lt h.le name))
  rw [checkedLookupInHash, Checked.breaks_reads_bind hslot,
    Checked.breaks_loop (chainRound_tracks h d name)]
  simp only [chainRound_breaks h]
  constructor
  · rintro hnot b ⟨t, w₁, w₂, hcomes, ht, hread⟩
    exact not_not.1 fun hfits => hnot ⟨t, w₁, hcomes, ht, b, w₂, hread, hfits⟩
  · rintro hfits ⟨t, w₁, hcomes, ht, b, w₂, hread, hnot⟩
    exact hnot (hfits b ⟨t, w₁, w₂, hcomes, ht, hread⟩)

/-- The first round of a walk. -/
def Volume.walkStart (v : Volume) (path : List Char) (scratch : Buf) : PathPos :=
  ⟨v.rootbuf, path.dropWhile isSep, v.rootBlock, scratch⟩

/-- The comparisons of all searches of a walk end in their blocks. -/
def WalkFits (d : Disk) (v : Volume) (path : List Char) (scratch : Buf) (w : World) : Prop :=
  ∀ s w₁, Prog.Comes (pathRound d v) (v.walkStart path scratch) w s w₁ →
    component s.cur ≠ [] → (component s.cur).length ≤ 107 →
      SearchFits d v s.htBuf (component s.cur) s.scratch w₁

theorem pathRound_breaks (h : Adopted v.bsize) (d : Disk) (s : PathPos) (w : World) :
    (checkedPathRound d v s).Breaks w ↔ component s.cur ≠ [] ∧ (component s.cur).length ≤ 107 ∧
      ¬ SearchFits d v s.htBuf (component s.cur) s.scratch w := by
  rw [checkedPathRound]
  split_ifs with hend hempty hlong
  · refine iff_of_false ((Checked.Follows.pure _).not_breaks w) fun hs => hs.1 ?_
    rw [hend]
    rfl
  · exact iff_of_false ((Checked.Follows.pure _).not_breaks w) fun hs => hs.1 hempty
  · exact iff_of_false ((Checked.Follows.pure _).not_breaks w)
      fun hs => Nat.not_le.2 hlong hs.2.1
  · rw [and_iff_right hempty, and_iff_right (Nat.not_lt.1 hlong),
      (lookupInHash_tracks h d s.htBuf _ s.scratch).breaks_bind, ← lookupInHash_breaks_iff h,
      not_not, or_iff_left]
    rintro ⟨x, w₁, -, hnext⟩
    exact (pathNext_follows h _ x.1 x.2).not_breaks w₁ hnext

theorem walkPath_breaks_iff (h : Adopted v.bsize) (d : Disk) (path : List Char) (scratch : Buf)
    (w : World) :
    ¬ (checkedWalkPath d v path scratch).Breaks w ↔ WalkFits d v path scratch w := by
  have hloop : (¬ (Checked.loop (checkedPathRound d v) (v.walkStart path scratch)).Breaks w) ↔
      WalkFits d v path scratch w := by
    rw [Checked.breaks_loop (pathRound_tracks h d)]
    simp only [pathRound_breaks h]
    constructor
    · intro hnot s w₁ hcomes hname hlen
      exact not_not.1 fun hfits => hnot ⟨s, w₁, hcomes, hname, hlen, hfits⟩
    · rintro hfits ⟨s, w₁, hcomes, hname, hlen, hnot⟩
      exact hnot (hfits s w₁ hcomes hname hlen)
  rw [checkedWalkPath]
  split_ifs with hroot
  · refine iff_of_true ((Checked.Follows.pure _).not_breaks w) fun s w₁ hcomes hname => ?_
    have hcur : (v.walkStart path scratch).cur = [] := hroot
    cases hcomes with
    | here => exact absurd (hcur ▸ rfl : component _ = []) hname
    | next hround _ =>
      rw [pathRound, if_pos hcur] at hround
      exact absurd hround.of_pure.1 Sum.inl_ne_inr
  · exact hloop

/-- A block of a hash chain that the listing reads, from block `s.1` on. -/
def EntryRead (d : Disk) (v : Volume) (s : Nat × Listing) (w : World) (b : Buf) : Prop :=
  ∃ t w₁ w₂, Prog.Comes (listRound d v) s w t w₁ ∧ t.1 ≠ 0 ∧
    Prog.Halts (v.readBlock d t.1 t.2.scratch) w₁ (.noError, b) w₂

/-- The names that a listing prints end in their blocks. -/
def ListFits (d : Disk) (v : Volume) (dirBlock scratch : Buf) (w : World) : Prop :=
  ∀ s w₁ b, Prog.Comes (bucketRound d v dirBlock) (0, ⟨[], scratch⟩) w s w₁ →
    s.1 < htEntries v.bsize → EntryRead d v (be32 dirBlock (htOffset + s.1 * 4), s.2) w₁ b →
      NameFits v.bsize v.isLnfs b

theorem listRound_breaks (h : Adopted v.bsize) (d : Disk) (s : Nat × Listing) (w : World) :
    (checkedListRound d v s).Breaks w ↔ s.1 ≠ 0 ∧ ∃ b w',
      Prog.Halts (v.readBlock d s.1 s.2.scratch) w (.noError, b) w' ∧
        ¬ NameFits v.bsize v.isLnfs b := by
  rw [checkedListRound]
  split_ifs with hend
  · exact iff_of_false ((Checked.Follows.pure _).not_breaks w) fun hs => hs.1 hend
  · rw [and_iff_right hend]
    refine (breaks_read fun x hx => ⟨_, if_pos hx⟩).trans
      (exists_congr fun b => exists_congr fun w' => and_congr_right fun _ => ?_)
    show Checked.Breaks (if Retcode.noError ≠ .noError then _ else _) w' ↔ _
    rw [if_neg (not_not_intro rfl)]
    exact Checked.breaks_inspect_pure.trans (not_congr (entry_examines h b).1)

theorem bucketRound_breaks (h : Adopted v.bsize) (d : Disk) (dirBlock : Buf) (s : Nat × Listing)
    (w : World) :
    (checkedBucketRound d v dirBlock s).Breaks w ↔ s.1 < htEntries v.bsize ∧
      ∃ b, EntryRead d v (be32 dirBlock (htOffset + s.1 * 4), s.2) w b ∧
        ¬ NameFits v.bsize v.isLnfs b := by
  rw [checkedBucketRound]
  split_ifs with hmore
  · rw [and_iff_right hmore, Checked.breaks_reads_bind (reads_be32 dirBlock (slot_le h.le hmore)),
      (Checked.Tracks.loop (listRound_tracks h d) _).breaks_bind, or_iff_left,
      Checked.breaks_loop (listRound_tracks h d)]
    · simp only [listRound_breaks h]
      constructor
      · rintro ⟨t, w₁, hcomes, ht, b, w₂, hread, hfits⟩
        exact ⟨b, ⟨t, w₁, w₂, hcomes, ht, hread⟩, hfits⟩
      · rintro ⟨b, ⟨t, w₁, w₂, hcomes, ht, hread⟩, hfits⟩
        exact ⟨t, w₁, hcomes, ht, b, w₂, hread, hfits⟩
    · rintro ⟨x, w₁, -, hnext⟩
      exact (Checked.Follows.pure _).not_breaks w₁ hnext
  · exact iff_of_false ((Checked.Follows.pure _).not_breaks w) fun hs => hmore hs.1

theorem listDirectory_breaks_iff (h : Adopted v.bsize) (d : Disk) (dirBlock scratch : Buf)
    (w : World) :
    ¬ (checkedListDirectory d v dirBlock scratch).Breaks w ↔
      ListFits d v dirBlock scratch w := by
  rw [checkedListDirectory, Checked.breaks_loop (bucketRound_tracks h d dirBlock)]
  simp only [bucketRound_breaks h]
  constructor
  · intro hnot s w₁ b hcomes hmore hread
    exact not_not.1 fun hfits => hnot ⟨s, w₁, hcomes, hmore, b, hread, hfits⟩
  · rintro hfits ⟨s, w₁, hcomes, hmore, b, hread, hnot⟩
    exact hnot (hfits s w₁ b hcomes hmore hread)

/-- A volume with the block size that the reader adopts. -/
def Volume.sized (v : Volume) (hint : Hint) : Volume := { v with bsize := fsBsize hint }

theorem sized_adopted (v : Volume) (hint : Hint) : Adopted (v.sized hint).bsize :=
  fsBsize_adopted hint

/-- The reader of FFS examines only bytes of the blocks that it has read, if and only if each name
that it prints ends in its block, and each name that it compares does or is found to be another one
before the end of the block. -/
theorem ffs_inside_iff (d : Disk) (v : Volume) (hint : Hint)
    (stack htBlock dirBlock hdr out scratch : Buf) (name : List UInt8) (path : List Char)
    (maxBytes : Nat) (w : World) :
    (¬ (checkedLookupInHash d (v.sized hint) htBlock name scratch).Breaks w ∧
      ¬ (checkedListDirectory d (v.sized hint) dirBlock scratch).Breaks w ∧
      ¬ (checkedWalkPath d (v.sized hint) path scratch).Breaks w ∧
      ¬ (checkedReadFileContents d stack (v.sized hint) hdr out maxBytes scratch).Breaks w ∧
      Inside (fsBsize hint) v.rootbuf (lookName (fsBsize hint) false)) ↔
      SearchFits d (v.sized hint) htBlock name scratch w ∧
        ListFits d (v.sized hint) dirBlock scratch w ∧
        WalkFits d (v.sized hint) path scratch w ∧ NameFits (fsBsize hint) false v.rootbuf := by
  have h := sized_adopted v hint
  rw [lookupInHash_breaks_iff h, listDirectory_breaks_iff h, walkPath_breaks_iff h,
    (name_examines (fsBsize_adopted hint) false v.rootbuf).1,
    and_iff_right ((readFileContents_follows h d stack hdr out maxBytes scratch).not_breaks w)]

/-- A header block with a name of 80 bytes, for which the block has 79. -/
def longName : Buf := fun i => if i = 432 then 80 else 0

def longDrive : ImageDisk := Disk.ofImage fun i => longName (i % 512)

/-- A directory whose first hash chain starts at block 1. -/
def longDir : Buf := fun i => if i = 27 then 1 else 0

def longVolume : Volume := ⟨0, 2 ^ 20, 512, 1, true, false, false, longDir, 880⟩

theorem longName_overruns :
    (checkedListDirectory longDrive.toDisk (longVolume.sized ⟨0, 0⟩) longDir fun _ => 0).Breaks
      Rdb.boot := by
  let b : Buf := Buf.copy (fun _ => 0) 0 (fun i => longName ((512 + i) % 512)) 0 512
  have hread : EntryRead longDrive.toDisk (longVolume.sized ⟨0, 0⟩)
      (be32 longDir (htOffset + 0 * 4), ⟨[], fun _ => 0⟩) Rdb.boot b :=
    ⟨_, _, _, .here, by decide, ⟨0, rfl⟩⟩
  have hlong : ¬ NameFits 512 false b := by decide
  refine not_not.1 fun hnot => hlong ?_
  exact (listDirectory_breaks_iff (sized_adopted longVolume ⟨0, 0⟩) _ _ _ _).1 hnot _ _ b .here
    (by decide) hread

end Ffs

end Pegasos2.Fs
