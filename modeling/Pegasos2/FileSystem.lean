import Pegasos2.AmigaRdb

namespace Pegasos2.Fs
open Program
set_option autoImplicit true

namespace Dos

def dosBlockSize : Nat := 512

/-- The fields of a `struct dos_partition` that are used. -/
structure Entry where
  typ : Nat
  start : Nat
  size : Nat

def entry (buf : Buf) (i : Nat) : Entry :=
  ⟨buf.nat (446 + i * 16 + 4), le32 buf (446 + i * 16 + 8), le32 buf (446 + i * 16 + 12)⟩

/-- The block has a boot signature, and is not a boot sector without an extended signature. -/
def isBootBlock (buf : Buf) : Bool :=
  buf.nat 510 == 0x55 && buf.nat 511 == 0xAA &&
    !((buf.nat 0 == 0xE9 || buf.nat 0 == 0xEB) &&
      !(buf.nat 38 == 0x29 || buf.nat 38 == 0x13 || buf.nat 38 == 0x7C || buf.nat 38 == 0xBC))

/-- `partition`, and the path behind it. -/
def selectPartition : List Char → Except Retcode (Option Nat × List Char)
  | [] => .ok (none, [])
  | c :: l =>
    if '0' ≤ c ∧ c ≤ '3' then
      .ok (some (c.toNat - '0'.toNat), (l.dropWhile (· != ',')).tail)
    else .error .eAbort

/-- The call for a partition of the table. -/
def subslice (q : Call) (path : List Char) (p : Entry) (r : Reply) : Call :=
  { q with
    path
    loc := u64 (q.loc + u32 (p.start * dosBlockSize))
    start := p.start
    size := dosBlockSize
    retbuf := r.retbuf
    probed := r.probed
    val := r.val }

/-- `dos_partition` calls `file_system`. -/
def enter (fs : Call → Io Reply) (q : Call) : Io Reply := do
  .access fun w => ((), { w with
    log := w.log ++ [.enter q.loc (if .amigaRdb ∈ w.disabled then some w.slice else none)] })
  fs q

/-- The bootblock of a partition is loaded. -/
def loadBootblock (d : Disk) (q : Call) (r : Reply) : Io (Reply ⊕ Reply) := do
  let (ret, retbuf) ← filesysReadBytes d q.loc dosBlockSize r.retbuf
  pure (.inr { r with ret, retbuf, val := dosBlockSize })

/-- A round of the loop of `dos_partition` goes on, or ends with a reply. `ext` is `dos_partition`
itself, for an extended partition. -/
def visit (d : Disk) (fs ext : Call → Io Reply) (q : Call) (partition : Option Nat)
    (path : List Char) (p : Entry) (i : Nat) (r : Reply) : Io (Reply ⊕ Reply) :=
  if p.size = 0 ∨ p.typ = 0 then
    if partition = some i ∧ q.what ≠ .probe then pure (.inr { r with ret := .eNoFilesys })
    else pure (.inl r)
  else if p.typ = 5 then do
    let r ← ext (subslice q path p r)
    pure (if r.ret = .noError ∨ r.ret = .eNoFilesys ∨ r.ret = .rEnd then .inl r else .inr r)
  else
    match q.what with
    | .probe => do
      let r ← enter fs (subslice q path p r)
      pure (if r.ret = .noError ∨ r.ret = .eNoFilesys then .inl r else .inr r)
    | .list =>
      if partition = some i then do
        let r ← enter fs (subslice q path p r)
        pure (.inr (Rdb.relabel r))
      else pure (.inl r)
    | .load =>
      if partition = some i then
        if path ≠ [] then do
          let r ← enter fs (subslice q path p r)
          pure (.inr (Rdb.relabel r))
        else loadBootblock d (subslice q path p r) r
      else pure (.inl r)

/-- The rest of the loop of `dos_partition`. -/
def entries (d : Disk) (fs ext : Call → Io Reply) (q : Call) (partition : Option Nat)
    (path : List Char) (buf : Buf) : List Nat → Reply → Io Reply
  | [], r => pure { r with ret := .rEnd }
  | i :: l, r => do
    let x ← visit d fs ext q partition path (entry buf i) i r
    match x with
    | .inl r => entries d fs ext q partition path buf l r
    | .inr r => pure r

/-- `dos_partition` with the partition that the path selects. -/
def afterSelect (d : Disk) (fs ext : Call → Io Reply) (q : Call) (buf : Buf) :
    Except Retcode (Option Nat × List Char) → Io Reply
  | .error ret => pure (q.reply ret)
  | .ok (partition, path) =>
    entries d fs ext q partition path buf [0, 1, 2, 3]
      { q.reply .noError with
        probed := if q.what = .probe then q.probed ++ ",dos-partition".toList else q.probed }

/-- `dos_partition` with the block at `loc`. -/
def table (d : Disk) (fs ext : Call → Io Reply) (q : Call) (ret : Retcode) (buf : Buf) :
    Io Reply :=
  if ret ≠ .noError then pure (q.reply ret)
  else if !isBootBlock buf || [0, 1, 2, 3].all fun i => (entry buf i).typ == 0 then
    pure (q.reply .eNoFilesys)
  else afterSelect d fs ext q buf (selectPartition q.path)

/-- `dos_partition`, with a stack for `depth` extended partitions inside each other. -/
def dosPartition (d : Disk) (fs : Call → Io Reply) : (depth : Nat) → Call → Io Reply
  | 0, q => pure (q.reply .eAbort)
  | depth + 1, q =>
    if q.size < dosBlockSize then pure (q.reply .eBlocksize)
    else do
      let (ret, buf) ← filesysReadBytes d q.loc q.size q.buf
      table d fs (dosPartition d fs depth) q ret buf

end Dos

/-- `g_filesys`. -/
def filesystems : List Fsys :=
  [.iso9660Compat, .dosPartition, .amigaRdb, .amigaFfs, .amigaSfs, .amigaPfs3, .fsExfat, .dosFat,
    .linuxExt2fs]

/-- A reader that does not call `file_system` again: it reads the disk and replies. -/
abbrev Readers := Fsys → Call → World → Reply × Nat

def runReader (readers : Readers) (f : Fsys) (q : Call) : Io Reply :=
  .access fun w => ((readers f q w).1, { w with reads := (readers f q w).2 })

def logFfs (loc : Nat) : Io Unit :=
  .access fun w => ((), { w with log := w.log ++ [.ffs loc w.hint w.slice] })

/-- The `action` of a file system. -/
def action (d : Disk) (readers : Readers) (depth : Nat) (fs : Call → Io Reply) (q : Call) :
    Fsys → Io Reply
  | .dosPartition => Dos.dosPartition d fs depth q
  | .amigaRdb => Rdb.amigaRdb d fs q
  | .amigaFfs => do
    logFfs q.loc
    runReader readers .amigaFfs q
  | f => runReader readers f q

def isDisabled (f : Fsys) : Io Bool := .access fun w => (decide (f ∈ w.disabled), w)

def disable (f : Fsys) : Io Unit := .access fun w => ((), { w with disabled := f :: w.disabled })

def enable (f : Fsys) : Io Unit :=
  .access fun w => ((), { w with disabled := w.disabled.erase f })

/-- The call of the next file system, with what the ones before have left. -/
def Call.resume (q : Call) (r : Reply) : Call :=
  { q with retbuf := r.retbuf, probed := r.probed, val := r.val }

/-- The loop of `file_system` over the rest of `g_filesys`. -/
def probeAll (act : Call → Fsys → Io Reply) (q : Call) : List Fsys → Reply → Io Reply
  | [], r => pure r
  | f :: l, r => do
    let off ← isDisabled f
    if off then probeAll act q l r
    else do
      disable f
      let r ← act (q.resume r) f
      enable f
      if r.ret ≠ .eNoFilesys then pure r else probeAll act q l r

/-- `file_system` after its read. -/
def afterRead (act : Call → Fsys → Io Reply) (q : Call) (ret : Retcode) (buf : Buf) : Io Reply :=
  if ret ≠ .noError then pure (q.reply ret)
  else probeAll act { q with buf } filesystems (q.reply .noError)

/-- `file_system`, called from inside at most `nesting` partitions. Two partition parsers are
registered, and each is disabled while it runs, so that no call has more than two around it. -/
def fileSystem (d : Disk) (readers : Readers) (depth : Nat) : (nesting : Nat) → Call → Io Reply
  | 0, q => pure (q.reply .eAbort)
  | nesting + 1, q => do
    let (ret, buf) ← filesysReadBytes d q.loc q.size q.buf
    afterRead (action d readers depth (fileSystem d readers depth nesting)) q ret buf

/-- A sequence of calls from outside. -/
def fileSystems (d : Disk) (readers : Readers) (depth nesting : Nat) : List Call → Io Unit
  | [] => pure ()
  | q :: l => do
    let _ ← fileSystem d readers depth nesting q
    fileSystems d readers depth nesting l

/-- `amiga_ffs` sees the hint of the partition at its `loc`, or none. -/
def Event.Right : Event → Prop
  | .ffs loc hint slice =>
    hint.byteSize ≠ 0 ∧ hint.blockSize ≠ 0 ∧ loc = slice ∨ hint.byteSize = 0 ∧ hint.blockSize = 0
  | _ => True

/-- Neither size of a hint is zero, and inside an RDB partition `dos_partition` enters only a slice
that starts where that partition starts. -/
def Event.Benign : Event → Prop
  | .publish hint => hint.byteSize ≠ 0 ∧ hint.blockSize ≠ 0
  | .enter loc slice => ∀ s, slice = some s → loc = s
  | .ffs _ _ _ => True

/-- What code that may call `amiga_ffs` leaves. `P` is what it needs to know of the state before it
for the calls to be right. -/
structure Keeps (P : Prop) (w w' : World) : Prop where
  disabled : w'.disabled = w.disabled
  hint : .amigaRdb ∈ w.disabled → w'.hint = w.hint ∧ w'.slice = w.slice
  log : ∃ l, w'.log = w.log ++ l ∧ (P → (∀ e ∈ l, e.Benign) → ∀ e ∈ l, e.Right)

/-- Inside an RDB partition the hint has no zeros. -/
def Hinted (w : World) : Prop :=
  .amigaRdb ∈ w.disabled → w.hint.byteSize ≠ 0 ∧ w.hint.blockSize ≠ 0

/-- Inside an RDB partition the hint has no zeros, and the call is for that partition. -/
def Sound (q : Call) (w : World) : Prop := Hinted w ∧ (.amigaRdb ∈ w.disabled → q.loc = w.slice)

theorem Keeps.reads (P : Prop) (w : World) (n : Nat) : Keeps P w { w with reads := n } :=
  ⟨rfl, fun _ => ⟨rfl, rfl⟩, [], (List.append_nil _).symm, fun _ _ _ he =>
    absurd he List.not_mem_nil⟩

theorem Keeps.trans (h : Keeps P w w₁) (h' : Keeps P' w₁ w₂) (himp : P → P') : Keeps P w w₂ := by
  obtain ⟨l, hl, hright⟩ := h.log
  obtain ⟨l', hl', hright'⟩ := h'.log
  refine ⟨h'.disabled.trans h.disabled, fun hmem => ?_, l ++ l', ?_, fun hP hb e he => ?_⟩
  · obtain ⟨hhint, hslice⟩ := h.hint hmem
    obtain ⟨hhint', hslice'⟩ := h'.hint (h.disabled.symm ▸ hmem)
    exact ⟨hhint'.trans hhint, hslice'.trans hslice⟩
  · rw [hl', hl, List.append_assoc]
  · obtain he | he := List.mem_append.1 he
    · exact hright hP (fun e he => hb e (List.mem_append_left _ he)) e he
    · exact hright' (himp hP) (fun e he => hb e (List.mem_append_right _ he)) e he

theorem Keeps.refl (P : Prop) (w : World) : Keeps P w w := .reads P w w.reads

theorem Keeps.hinted (h : Keeps P w w') (hw : Hinted w) : Hinted w' := by
  intro hmem
  rw [h.disabled] at hmem
  rw [(h.hint hmem).1]
  exact hw hmem

theorem filesysReadBytes_keeps (d : Disk) (loc size : Nat) (buf : Buf) (P : Prop) (w : World) :
    Prog.Returns (filesysReadBytes d loc size buf) w fun _ w' => Keeps P w w' := by
  exact .access (.reads P w _)

/-- What the nested `file_system` is known to do. -/
def Nested (fs : Call → Io Reply) : Prop :=
  ∀ q w, Prog.Returns (fs q) w fun _ w' => Keeps (Sound q w) w w'

namespace Dos

section

variable (d : Disk) {fs : Call → Io Reply} (hfs : Nested fs)
include hfs

theorem enter_keeps (q : Call) (w : World) :
    Prog.Returns (enter fs q) w fun _ w' => Keeps (Hinted w) w w' := by
  refine .after (.access _ _) ?_
  obtain ⟨r, w', hr, hk⟩ := hfs q { w with
    log := w.log ++ [.enter q.loc (if .amigaRdb ∈ w.disabled then some w.slice else none)] }
  refine ⟨r, w', hr, hk.disabled, hk.hint, ?_⟩
  obtain ⟨l, hl, hright⟩ := hk.log
  refine ⟨.enter q.loc (if .amigaRdb ∈ w.disabled then some w.slice else none) :: l, ?_,
    fun hw hb e he => ?_⟩
  · rw [hl, List.append_assoc]
    rfl
  · obtain rfl | he := List.mem_cons.1 he
    · trivial
    · refine hright ⟨hw, fun hmem => ?_⟩ (fun e he => hb e (List.mem_cons_of_mem _ he)) e he
      exact hb _ List.mem_cons_self w.slice (if_pos hmem)

/-- A call of `file_system` for a partition, and what is done with the reply. -/
theorem enter_then (q : Call) (w : World) (f : Reply → Reply ⊕ Reply) :
    Prog.Returns (enter fs q >>= fun r => pure (f r)) w fun _ w' => Keeps (Hinted w) w w' :=
  .bind (enter_keeps hfs q w) fun _ _ h => .pure h

theorem visit_keeps {ext : Call → Io Reply}
    (hext : ∀ q w, Prog.Returns (ext q) w fun _ w' => Keeps (Hinted w) w w') (q : Call)
    (partition : Option Nat) (path : List Char) (p : Entry) (i : Nat) (r : Reply) (w : World) :
    Prog.Returns (visit d fs ext q partition path p i r) w fun _ w' => Keeps (Hinted w) w w' := by
  have hstay (x : Reply ⊕ Reply) :
      Prog.Returns (pure x : Io _) w fun _ w' => Keeps (Hinted w) w w' := .pure (.refl _ w)
  rw [visit]
  split
  · split
    · exact hstay _
    · exact hstay _
  · split
    · exact .bind (hext _ w) fun _ _ h => .pure h
    · split
      · exact enter_then hfs _ w _
      · split
        · exact enter_then hfs _ w _
        · exact hstay _
      · split
        · split
          · exact enter_then hfs _ w _
          · exact .bind (filesysReadBytes_keeps d _ _ _ _ w) fun _ _ h => .pure h
        · exact hstay _

theorem entries_keeps {ext : Call → Io Reply}
    (hext : ∀ q w, Prog.Returns (ext q) w fun _ w' => Keeps (Hinted w) w w') (q : Call)
    (partition : Option Nat) (path : List Char) (buf : Buf) (l : List Nat) (r : Reply)
    (w : World) :
    Prog.Returns (entries d fs ext q partition path buf l r) w fun _ w' =>
      Keeps (Hinted w) w w' := by
  induction l generalizing r w with
  | nil => exact .pure (.refl _ w)
  | cons i l ih =>
    rw [entries]
    refine .bind (visit_keeps d hfs hext q partition path _ i r w) fun x w₁ h => ?_
    cases x with
    | inl r => exact (ih r w₁).mono fun _ _ h' => h.trans h' h.hinted
    | inr r => exact .pure h

theorem dosPartition_keeps (depth : Nat) (q : Call) (w : World) :
    Prog.Returns (dosPartition d fs depth q) w fun _ w' => Keeps (Hinted w) w w' := by
  induction depth generalizing q w with
  | zero => exact .pure (.refl _ w)
  | succ depth ih =>
    rw [dosPartition]
    split
    · exact .pure (.refl _ w)
    · refine .bind (filesysReadBytes_keeps d _ _ _ (Hinted w) w) fun x w₁ h => ?_
      have hstay (r : Reply) :
          Prog.Returns (pure r : Io _) w₁ fun _ w' => Keeps (Hinted w) w w' := .pure h
      simp only [table]
      split
      · exact hstay _
      · split
        · exact hstay _
        · cases selectPartition q.path with
          | error ret => exact hstay _
          | ok sel =>
            exact (entries_keeps d hfs ih q sel.1 sel.2 x.2 _ _ w₁).mono fun _ _ h' =>
              h.trans h' h.hinted

end

end Dos

namespace Rdb

/-- Nothing but reads separates two states. -/
def OnlyReads (w w' : World) : Prop := ∃ n, w' = { w with reads := n }

theorem OnlyReads.read (h : OnlyReads w w') (d : Disk) (loc size : Nat) (buf : Buf) :
    Prog.Returns (filesysReadBytes d loc size buf) w' fun _ w'' => OnlyReads w w'' := by
  obtain ⟨n, rfl⟩ := h
  exact .access ⟨n + 1, rfl⟩

theorem OnlyReads.findRdbFrom (h : OnlyReads w w') (d : Disk) (loc n b : Nat) (buf : Buf) :
    Prog.Returns (Rdb.findRdbFrom d loc n b buf) w' fun _ w'' => OnlyReads w w'' := by
  induction n generalizing b buf w' with
  | zero => exact .pure h
  | succ n ih =>
    rw [Rdb.findRdbFrom]
    refine .bind (h.read d _ _ buf) fun x w₁ h₁ => ?_
    simp only
    split
    · exact .pure h₁
    · split
      · exact .pure h₁
      · exact ih h₁ _ _

/-- What `amiga_rdb` leaves: if the next file system gets its turn, then without a hint. -/
structure Leaves (w : World) (r : Reply) (w' : World) : Prop where
  disabled : w'.disabled = w.disabled
  hint : r.ret = .eNoFilesys → w'.hint = ⟨0, 0⟩
  log : ∃ l, w'.log = w.log ++ l ∧ ((∀ e ∈ l, e.Benign) → ∀ e ∈ l, e.Right)

theorem Leaves.of_reads (h : OnlyReads { w with hint := ⟨0, 0⟩ } w') (r : Reply) :
    Leaves w r w' := by
  obtain ⟨n, rfl⟩ := h
  exact ⟨rfl, fun _ => rfl, [], (List.append_nil _).symm, fun _ _ he => absurd he List.not_mem_nil⟩

section

variable (d : Disk) {fs : Call → Io Reply} (hfs : Nested fs)
include hfs

theorem visit_leaves (q : Call) (selected : Int) (path : List Char) (p : Pos) (buf : Buf)
    (range : Option (Nat × Nat)) (hend : ¬ p.AtEnd)
    (h : OnlyReads { w with hint := ⟨0, 0⟩ } w₁) :
    Prog.Returns (visit fs q selected path p buf range) w₁ (Prog.Returns.Round
      (fun _ w' => OnlyReads { w with hint := ⟨0, 0⟩ } w') (fun p => maxPartitions - p.idx)
      (maxPartitions - p.idx) fun r w' => Leaves w r w') := by
  have hlt : p.idx < maxPartitions := Nat.not_le.1 fun hle => hend (.inr (.inr hle))
  have hnext : maxPartitions - (p.next buf).idx < maxPartitions - p.idx :=
    Nat.sub_lt_sub_left hlt (Nat.lt_succ_self _)
  cases range with
  | none => exact .pure ⟨h, hnext⟩
  | some range =>
    rw [visit]
    split
    · obtain ⟨n, rfl⟩ := h
      refine .after (.access _ _) ?_
      refine .bind (hfs _ _) fun r w₂ hk => .pure ?_
      obtain ⟨l, hl, hright⟩ := hk.log
      refine ⟨hk.disabled, fun hret => ?_, .publish ⟨range.2, (env buf).fsBlockSize⟩ :: l, ?_,
        fun hb e he => ?_⟩
      · rw [relabel] at hret
        simp only at hret
        split at hret
        · cases hret
        · contradiction
      · rw [hl, List.append_assoc]
        rfl
      · obtain rfl | he := List.mem_cons.1 he
        · trivial
        · exact hright ⟨fun _ => hb _ List.mem_cons_self, fun _ => rfl⟩
            (fun e he => hb e (List.mem_cons_of_mem _ he)) e he
    · exact .pure ⟨h, hnext⟩

theorem round_leaves (q : Call) (selected : Int) (path : List Char) (p : Pos)
    (h : OnlyReads { w with hint := ⟨0, 0⟩ } w₁) :
    Prog.Returns (round d fs q selected path p) w₁ (Prog.Returns.Round
      (fun _ w' => OnlyReads { w with hint := ⟨0, 0⟩ } w') (fun p => maxPartitions - p.idx)
      (maxPartitions - p.idx) fun r w' => Leaves w r w') := by
  rw [round]
  split
  · exact .pure (.of_reads h _)
  next hend =>
    refine .bind (h.read d _ _ p.buf) fun x w₂ h₂ => ?_
    simp only [inspect]
    split
    · exact .pure (.of_reads h₂ _)
    · split
      · exact .pure (.of_reads h₂ _)
      · exact visit_leaves hfs q selected path p x.2 _ hend h₂

theorem amigaRdb_leaves (q : Call) (w : World) :
    Prog.Returns (amigaRdb d fs q) w fun r w' => Leaves w r w' := by
  rw [amigaRdb]
  split
  · exact .pure ⟨rfl, Retcode.noConfusion, [], (List.append_nil _).symm, fun _ _ he =>
      absurd he List.not_mem_nil⟩
  · refine .after (.access _ _) ?_
    have h : OnlyReads { w with hint := ⟨0, 0⟩ } { w with hint := ⟨0, 0⟩ } := ⟨w.reads, rfl⟩
    refine .bind (h.findRdbFrom d q.loc 16 0 q.buf) fun x w₁ h₁ => ?_
    obtain ⟨rdb, buf⟩ := x
    cases rdb with
    | none => exact .pure (.of_reads h₁ _)
    | some b =>
      simp only [afterFind]
      refine .bind (h₁.read d _ _ buf) fun x w₂ h₂ => ?_
      simp only [afterReread]
      split
      · exact .pure (.of_reads h₂ _)
      · split
        · exact .pure (.of_reads h₂ _)
        · rw [partitions]
          split
          · exact .pure (.of_reads h₂ _)
          · exact .loop _ _ (fun p w' h' => round_leaves d hfs q _ _ p h') h₂

end

end Rdb

/-- `amiga_rdb` comes before `amiga_ffs` and after `dos_partition`. -/
def Ordered : List Fsys → Prop
  | [] => True
  | .amigaRdb :: l => .dosPartition ∉ l
  | .amigaFfs :: _ => False
  | _ :: l => Ordered l

/-- `amiga_ffs` does not see a hint before `amiga_rdb` has had its turn. -/
def Ready (l : List Fsys) (w : World) : Prop :=
  .amigaRdb ∉ w.disabled → Ordered l ∨ w.hint = ⟨0, 0⟩ ∧ .dosPartition ∉ l

theorem Ordered.tail (h : Ordered (f :: l)) (hf : f ≠ .amigaRdb) : Ordered l := by
  cases f with
  | amigaRdb => exact absurd rfl hf
  | amigaFfs => exact h.elim
  | iso9660Compat | dosPartition | amigaSfs | amigaPfs3 | fsExfat | dosFat | linuxExt2fs => exact h

theorem Ready.skip (h : Ready (f :: l) w) (hoff : f ∈ w.disabled) : Ready l w := by
  intro hmem
  obtain hord | ⟨hzero, hdos⟩ := h hmem
  · exact .inl (hord.tail fun heq => hmem (heq ▸ hoff))
  · exact .inr ⟨hzero, fun h' => hdos (List.mem_cons_of_mem _ h')⟩

section

variable (d : Disk) (readers : Readers) (depth : Nat) {fs : Call → Io Reply} (hfs : Nested fs)

theorem runReader_keeps (f : Fsys) (q : Call) (w : World) :
    Prog.Returns (runReader readers f q) w fun _ w' => Keeps (Sound q w) w w' ∧
      w'.hint = w.hint :=
  .access ⟨.reads _ w _, rfl⟩

include hfs

theorem action_keeps (q : Call) (f : Fsys) (hf : f ≠ .amigaRdb)
    (hffs : f = .amigaFfs → .amigaRdb ∉ w.disabled → w.hint = ⟨0, 0⟩) :
    Prog.Returns (action d readers depth fs q f) w fun _ w' => Keeps (Sound q w) w w' ∧
      (f ≠ .dosPartition → w'.hint = w.hint) := by
  have hreader (f : Fsys) : Prog.Returns (runReader readers f q) w fun _ w' =>
      Keeps (Sound q w) w w' ∧ (f ≠ .dosPartition → w'.hint = w.hint) :=
    (runReader_keeps readers f q w).mono fun _ _ h => ⟨h.1, fun _ => h.2⟩
  cases f with
  | amigaRdb => exact absurd rfl hf
  | dosPartition =>
    refine (Dos.dosPartition_keeps d hfs depth q w).mono fun _ w' h => ⟨?_, fun hne =>
      absurd rfl hne⟩
    exact (Keeps.refl (Sound q w) w).trans h And.left
  | amigaFfs =>
    refine .after (.access _ _) (.access ⟨⟨rfl, fun _ => ⟨rfl, rfl⟩, ?_⟩, fun _ => rfl⟩)
    refine ⟨[.ffs q.loc w.hint w.slice], rfl, fun hs _ e he => ?_⟩
    obtain rfl := List.mem_singleton.1 he
    by_cases hmem : .amigaRdb ∈ w.disabled
    · obtain ⟨hbyte, hblock⟩ := hs.1 hmem
      exact .inl ⟨hbyte, hblock, hs.2 hmem⟩
    · have hzero := hffs rfl hmem
      exact .inr ⟨congrArg Hint.byteSize hzero, congrArg Hint.blockSize hzero⟩
  | iso9660Compat => exact hreader _
  | amigaSfs => exact hreader _
  | amigaPfs3 => exact hreader _
  | fsExfat => exact hreader _
  | dosFat => exact hreader _
  | linuxExt2fs => exact hreader _

end

/-- The state in which a file system runs, and the state after it has been registered again. -/
def World.without (w : World) (f : Fsys) : World := { w with disabled := f :: w.disabled }

def World.again (w : World) (f : Fsys) : World := { w with disabled := w.disabled.erase f }

theorem Keeps.again (h : Keeps (Sound q (w.without f)) (w.without f) w₁) (hf : f ≠ .amigaRdb) :
    Keeps (Sound q w) w (w₁.again f) := by
  have hiff : .amigaRdb ∈ (w.without f).disabled ↔ .amigaRdb ∈ w.disabled := by
    simp only [World.without, List.mem_cons, hf.symm, false_or]
  obtain ⟨l, hl, hright⟩ := h.log
  refine ⟨?_, fun hmem => h.hint (hiff.2 hmem), l, hl, fun hs => hright ⟨?_, ?_⟩⟩
  · rw [World.again, h.disabled]
    exact List.erase_cons_head f w.disabled
  · exact fun hmem => hs.1 (hiff.1 hmem)
  · exact fun hmem => hs.2 (hiff.1 hmem)

theorem Rdb.Leaves.again (h : Rdb.Leaves (w.without .amigaRdb) r w₁) (P : Prop)
    (hmem : .amigaRdb ∉ w.disabled) : Keeps P w (w₁.again .amigaRdb) := by
  obtain ⟨l, hl, hright⟩ := h.log
  refine ⟨?_, fun hmem' => absurd hmem' hmem, l, hl, fun _ => hright⟩
  rw [World.again, h.disabled]
  exact List.erase_cons_head Fsys.amigaRdb w.disabled

section

variable (d : Disk) (readers : Readers) (depth : Nat) {fs : Call → Io Reply} (hfs : Nested fs)
include hfs

theorem turn_keeps (q : Call) (l : List Fsys) (hoff : f ∉ w.disabled) (h : Ready (f :: l) w) :
    Prog.Returns (action d readers depth fs q f) (w.without f) fun r w' =>
      Keeps (Sound q w) w (w'.again f) ∧ (r.ret = .eNoFilesys → Ready l (w'.again f)) := by
  by_cases hf : f = .amigaRdb
  · subst hf
    refine (Rdb.amigaRdb_leaves d hfs q _).mono fun r w' hl => ⟨hl.again _ hoff, fun hret _ => ?_⟩
    right
    refine ⟨hl.hint hret, ?_⟩
    obtain hord | ⟨-, hdos⟩ := h hoff
    · exact hord
    · exact fun hmem => hdos (List.mem_cons_of_mem _ hmem)
  · have hffs (heq : f = .amigaFfs) (hmem : .amigaRdb ∉ (w.without f).disabled) :
        (w.without f).hint = ⟨0, 0⟩ := by
      subst heq
      obtain hord | ⟨hzero, -⟩ := h fun h' => hmem (List.mem_cons_of_mem _ h')
      · exact hord.elim
      · exact hzero
    refine (action_keeps d readers depth hfs q f hf hffs).mono fun r w' hk => ?_
    have hkeeps := hk.1.again hf
    refine ⟨hkeeps, fun _ hmem => ?_⟩
    rw [hkeeps.disabled] at hmem
    obtain hord | ⟨hzero, hdos⟩ := h hmem
    · exact .inl (hord.tail hf)
    · right
      have hne : f ≠ .dosPartition := fun heq => hdos (heq ▸ List.mem_cons_self)
      exact ⟨(hk.2 hne).trans hzero, fun h' => hdos (List.mem_cons_of_mem _ h')⟩

theorem probeAll_keeps (q : Call) (l : List Fsys) (r : Reply) (w : World) (h : Ready l w) :
    Prog.Returns (probeAll (action d readers depth fs) q l r) w fun _ w' =>
      Keeps (Sound q w) w w' := by
  induction l generalizing r w with
  | nil => exact .pure (.refl _ w)
  | cons f l ih =>
    rw [probeAll]
    refine .after (.access _ _) ?_
    by_cases hoff : f ∈ w.disabled
    · rw [if_pos (decide_eq_true hoff)]
      exact ih r w (h.skip hoff)
    · rw [if_neg fun hdec => hoff (of_decide_eq_true hdec)]
      refine .after (.access _ _) ?_
      refine .bind (turn_keeps d readers depth hfs (q.resume r) l hoff h) fun r w₁ hk => ?_
      obtain ⟨hkeeps, hready⟩ := hk
      refine .after (.access _ _) ?_
      by_cases hret : r.ret ≠ .eNoFilesys
      · rw [if_pos hret]
        exact .pure hkeeps
      · rw [if_neg hret]
        refine (ih r (w₁.again f) (hready (not_not.1 hret))).mono fun _ w₂ hk₂ => ?_
        refine hkeeps.trans hk₂ fun hs => ⟨hkeeps.hinted hs.1, fun hmem => ?_⟩
        rw [hkeeps.disabled] at hmem
        rw [(hkeeps.hint hmem).2]
        exact hs.2 hmem

end

theorem fileSystem_keeps (d : Disk) (readers : Readers) (depth nesting : Nat) :
    Nested (fileSystem d readers depth nesting) := by
  induction nesting with
  | zero => exact fun q w => .pure (.refl _ w)
  | succ nesting ih =>
    intro q w
    rw [fileSystem]
    refine .bind (filesysReadBytes_keeps d _ _ _ (Sound q w) w) fun x w₁ h => ?_
    simp only [afterRead]
    split
    · exact .pure h
    · have hready : Ready filesystems w₁ := fun _ => .inl (by
        rw [filesystems]
        simp [Ordered])
      refine (probeAll_keeps d readers depth ih _ filesystems _ w₁ hready).mono fun _ w₂ hk => ?_
      refine h.trans hk fun hs => ⟨h.hinted hs.1, fun hmem => ?_⟩
      rw [h.disabled] at hmem
      rw [(h.hint hmem).2]
      exact hs.2 hmem

theorem fileSystems_keeps (d : Disk) (readers : Readers) (depth nesting : Nat)
    (calls : List Call) (hw : w.disabled = []) :
    Prog.Returns (fileSystems d readers depth nesting calls) w fun _ w' => Keeps True w w' := by
  induction calls generalizing w with
  | nil => exact .pure (.refl _ w)
  | cons q calls ih =>
    rw [fileSystems]
    refine .bind (fileSystem_keeps d readers depth nesting q w) fun _ w₁ h => ?_
    have hsound : Sound q w :=
      ⟨fun hmem => absurd (hw ▸ hmem) List.not_mem_nil, fun hmem =>
        absurd (hw ▸ hmem) List.not_mem_nil⟩
    refine (ih (h.disabled.trans hw)).mono fun _ w₂ h₂ => ?_
    exact ((Keeps.refl True w).trans h fun _ => hsound).trans h₂ id

/-- The state before the first call, whatever the globals hold. -/
def World.start (reads : Nat) (hint : Hint) (slice : Nat) : World := ⟨reads, hint, slice, [], []⟩

/-- In a run of calls whose steps are all benign, `amiga_ffs` never sees a hint that does not
belong to its `loc`. -/
theorem fileSystems_hint_right (d : Disk) (readers : Readers) (depth nesting : Nat)
    (calls : List Call) (reads : Nat) (hint : Hint) (slice : Nat) :
    Prog.Returns (fileSystems d readers depth nesting calls) (.start reads hint slice) fun _ w' =>
      (∀ e ∈ w'.log, e.Benign) → ∀ e ∈ w'.log, e.Right := by
  refine (fileSystems_keeps d readers depth nesting calls rfl).mono fun _ w' h => ?_
  obtain ⟨l, hl, hright⟩ := h.log
  have hlog : w'.log = l := hl
  rw [hlog]
  exact hright trivial

/-- A disk with an RDB whose only partition, at byte 32768, starts with an MBR: the partition of
that table starts at its sector 1. -/
def nestedWord : Nat → Nat
  | 0 => Rdb.magicRdsk
  | 1 => 64
  | 2 => 0xADBBAC74
  | 7 => 1
  | 128 => Rdb.magicPart
  | 132 => 0xFFFFFFFF
  | 161 => 128
  | 163 => 1
  | 164 => 1
  | 165 => 32
  | 169 => 2
  | 170 => 9
  | 8304 => 0x00000600
  | 8305 => 0x00000100
  | 8306 => 0x00000100
  | 8319 => 0x000055AA
  | _ => 0

def nestedDisk : Disk :=
  (Disk.ofImage fun i => .ofNat (nestedWord (i / 4) / 256 ^ (3 - i % 4))).toDisk

/-- No reader knows what is there. -/
def unknown : Readers := fun _ q w => (q.reply .eNoFilesys, w.reads)

def nestedCall : Call :=
  ⟨.load, "0,0,x".toList, 0, 0, fun _ => 0, 512, fun _ => 0, [], 0⟩

theorem nestedDisk_log :
    ((fileSystems nestedDisk unknown 1 3 [nestedCall]).run 5 (.start 0 ⟨0, 0⟩ 0)).map (·.2.log) =
      some [.publish ⟨131072, 512⟩, .enter 33280 (some 32768),
        .ffs 33280 ⟨131072, 512⟩ 32768] := by decide +kernel

/-- `amiga_ffs` runs on the slice of the MBR with the hint of the RDB partition around it. -/
theorem nestedDisk_hint_leaks : ∃ w',
    Prog.Halts (fileSystems nestedDisk unknown 1 3 [nestedCall]) (.start 0 ⟨0, 0⟩ 0) () w' ∧
      ¬ ∀ e ∈ w'.log, e.Right := by
  obtain ⟨⟨_, w'⟩, hrun, hlog⟩ := Option.map_eq_some_iff.1 nestedDisk_log
  have hlog' : w'.log = [.publish ⟨131072, 512⟩, .enter 33280 (some 32768),
      .ffs 33280 ⟨131072, 512⟩ 32768] := hlog
  refine ⟨w', ⟨5, hrun⟩, fun h => ?_⟩
  obtain ⟨-, -, hloc⟩ | ⟨hzero, -⟩ := h (.ffs 33280 ⟨131072, 512⟩ 32768) (by rw [hlog']; decide)
  · exact absurd hloc (by decide)
  · exact absurd hzero (by decide)

end Pegasos2.Fs
