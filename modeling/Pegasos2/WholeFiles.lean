import Pegasos2.ExfatAddresses
import Pegasos2.ExfatChains
import Pegasos2.FfsTables

namespace Pegasos2.Fs
open Program
set_option autoImplicit true

/-- The call of `FS_LOAD` for `q`, with `out` in `retbuf`. -/
def Call.load (q : Call) (out : Buf) : Call := { q with what := .load, retbuf := out }

/-- Each `FS_LOAD` that reports success has loaded a file, in full: `*val` is a size of `sizes`, and
as many bytes have been written to the start of `retbuf`. -/
def Whole (run : Call → Io Reply) (q : Call) (w : World) (sizes : Nat → Prop) : Prop :=
  ∃ f : Buf, ∀ out r w', Prog.Halts (run (q.load out)) w r w' → r.ret = .rEnd →
    sizes r.val ∧ r.retbuf = out.copy 0 f 0 r.val

/-- `FS_LOAD` reads the file that it has found, if it has found one. `Found t w₁` says that it has
found the file `t`, in the state `w₁`. -/
structure Loader (run : Call → Io Reply) (q : Call) (w : World) (Found : φ → World → Prop)
    (read : φ → Buf → Io (Retcode × Copied)) : Prop where
  unique : ∀ t w₁ t' w₂, Found t w₁ → Found t' w₂ → t = t' ∧ w₁ = w₂
  reads : ∀ t w₁ out y w', Found t w₁ → Prog.Halts (read t out) w₁ y w' →
    Prog.Halts (run (q.load out)) w (loaded (q.load out) y.1 y.2) w'
  of_run : ∀ out r w', Prog.Halts (run (q.load out)) w r w' → r.ret = .rEnd →
    ∃ t w₁ y, Found t w₁ ∧ Prog.Halts (read t out) w₁ y w' ∧ r = loaded (q.load out) y.1 y.2

/-- A run that reports success does not end with another code. -/
theorem not_early {p : Call} {e : Retcode}
    (h : Prog.Halts (pure (p.reply e) : Io Reply) w r w') (he : e ≠ .rEnd)
    (hret : r.ret = .rEnd) : False := by
  obtain ⟨rfl, -⟩ := h.of_pure
  exact he hret

/-- A run that reports success has passed a check that would have ended it with another code. -/
theorem passed_check {p : Call} {e : Retcode} {c : Prop} [Decidable c] {rest : Io Reply}
    (h : Prog.Halts (if c then pure (p.reply e) else rest) w r w') (he : c → e ≠ .rEnd)
    (hret : r.ret = .rEnd) : ¬ c ∧ Prog.Halts rest w r w' := by
  by_cases hc : c
  · rw [if_pos hc] at h
    exact (not_early h (he hc) hret).elim
  · rw [if_neg hc] at h
    exact ⟨hc, h⟩

section

variable {run : Call → Io Reply} {q : Call} {w : World} {Found : φ → World → Prop}
  {read : φ → Buf → Io (Retcode × Copied)} {size : φ → Nat} {short : φ → Prop}

/-- An `FS_LOAD` that reports success has read the whole file, or what there is of it. -/
theorem Loader.result (hloader : Loader run q w Found read)
    (hreads : ∀ t w₁, Found t w₁ → Reads (read t) (size t) (short t))
    (hrun : Prog.Halts (run (q.load out)) w r w') (hret : r.ret = .rEnd) :
    ∃ t w₁, Found t w₁ ∧ Prog.Halts (read t out) w₁ (.noError, ⟨r.val, r.retbuf⟩) w' ∧
      (r.val = size t ∨ short t) := by
  obtain ⟨t, w₁, ⟨ret, c⟩, hfound, hread, rfl⟩ := hloader.of_run out r w' hrun hret
  cases (hreads t w₁ hfound).result out w₁ _ w' hread with
  | fail herror =>
    rw [loaded, if_pos herror.1] at hret
    exact absurd hret herror.2
  | whole hc =>
    refine ⟨t, w₁, hfound, ?_, .inl ?_⟩
    · exact hread
    · exact hc
  | short hlt hshort => exact ⟨t, w₁, hfound, hread, .inr hshort⟩

/-- Files are loaded in full if and only if the blocks of none that is found end too early. -/
theorem Loader.whole_iff (hloader : Loader run q w Found read)
    (hreads : ∀ t w₁, Found t w₁ → Reads (read t) (size t) (short t)) :
    Whole run q w (fun n => ∃ t w₁, Found t w₁ ∧ n = size t) ↔
      ∀ t w₁, Found t w₁ → ¬ short t := by
  constructor
  · rintro ⟨f, hwhole⟩ t w₁ hfound hshort
    obtain ⟨c, w', hread, hlt⟩ := (hreads t w₁ hfound).shortened hshort f w₁
    have hrun := hloader.reads t w₁ f _ w' hfound hread
    obtain ⟨⟨t', w₂, hfound', hsize⟩, -⟩ := hwhole f _ w' hrun rfl
    obtain ⟨rfl, -⟩ := hloader.unique t w₁ t' w₂ hfound hfound'
    exact absurd hsize (Nat.ne_of_lt hlt)
  · intro hlong
    by_cases hany : ∃ b r w', Prog.Halts (run (q.load b)) w r w' ∧ r.ret = .rEnd
    · obtain ⟨b, r₁, w₁, hrun₁, hret₁⟩ := hany
      refine ⟨r₁.retbuf, fun out r w' hrun hret => ?_⟩
      obtain ⟨t₁, v₁, hfound₁, hread₁, -⟩ := hloader.result hreads hrun₁ hret₁
      obtain ⟨t, v, hfound, hread, hsize⟩ := hloader.result hreads hrun hret
      obtain ⟨rfl, rfl⟩ := hloader.unique t v t₁ v₁ hfound hfound₁
      have hsame := (hreads t v hfound).onto b out v _ _ _ hread₁
      obtain ⟨heq, -⟩ := hread.unique hsame
      obtain ⟨hval, hbuf⟩ := Copied.mk.inj (Prod.mk.inj heq).2
      refine ⟨⟨t, v, hfound, hsize.resolve_right (hlong t v hfound)⟩, ?_⟩
      rw [hbuf, hval]
    · refine ⟨fun _ => 0, fun out r w' hrun hret => ?_⟩
      exact absurd ⟨out, r, w', hrun, hret⟩ hany

end

namespace Ffs

/-- A file header of a volume, with what `g_ffs_iobuf` holds. -/
structure Opened where
  v : Volume
  buf : Buf
  hdr : Buf

def Opened.size (t : Opened) : Nat := be32 t.hdr (offByteSize t.v.bsize)

def Opened.read (d : Drive) (stack : Buf) (t : Opened) (out : Buf) : Io (Retcode × Copied) :=
  readFileContents d.toDisk stack t.v t.hdr out 0xFFFFFFFF t.buf

def Opened.Short (d : Drive) (stack : Buf) (t : Opened) : Prop :=
  TablesShort t.v (t.v.fetch d stack) (t.v.fetch d t.buf) t.hdr t.size

/-- `amiga_ffs` finds the file header `t`. -/
structure FoundFile (d : Drive) (stack iobuf : Buf) (q : Call) (w : World) (t : Opened)
    (w₁ : World) : Prop where
  size : bsizeDefault ≤ q.size
  walk : ∃ w₀, Prog.Halts (mount d.toDisk stack iobuf q.loc w.hint) w (some (t.v, t.buf)) w₀ ∧
    ∃ n, n ≠ 0 ∧ Prog.Halts (walkPath d.toDisk t.v q.path stack) w₀ (n, t.hdr) w₁
  file : be32 t.hdr (offSecType t.v.bsize) = stFile

theorem opened_reads (d : Drive) (stack : Buf) (t : Opened) :
    Reads (t.read d stack) t.size (t.Short d stack) := by
  have hreads := readFileContents_reads t.v d stack t.buf t.hdr 0xFFFFFFFF
  have hmin : min (be32 t.hdr (offByteSize t.v.bsize)) 0xFFFFFFFF = t.size :=
    Nat.min_eq_left (Nat.le_of_lt_succ (be32_lt _ _))
  rw [hmin] at hreads
  exact hreads

theorem amigaFfs_loader (d : Drive) (stack iobuf : Buf) (q : Call) (w : World) :
    Loader (amigaFfs d.toDisk stack iobuf) q w (FoundFile d stack iobuf q w)
      (Opened.read d stack) where
  unique := by
    rintro ⟨v, buf, hdr⟩ w₁ ⟨v', buf', hdr'⟩ w₂ ⟨-, ⟨w₀, hmount, n, -, hwalk⟩, -⟩
      ⟨-, ⟨w₀', hmount', n', -, hwalk'⟩, -⟩
    obtain ⟨heq, rfl⟩ := hmount.unique hmount'
    obtain ⟨rfl, rfl⟩ := Prod.mk.inj (Option.some.inj heq)
    obtain ⟨heq, rfl⟩ := hwalk.unique hwalk'
    obtain ⟨rfl, rfl⟩ := Prod.mk.inj heq
    exact ⟨rfl, rfl⟩
  reads := by
    rintro ⟨v, buf, hdr⟩ w₁ out y w' ⟨hsize, ⟨w₀, hmount, n, hne, hwalk⟩, hfile⟩ hread
    have hhint : Prog.Halts getHint w w.hint w := .access _ w
    rw [amigaFfs, if_neg (show ¬ (q.load out).size < bsizeDefault from Nat.not_lt.2 hsize)]
    apply hhint.bind
    apply Prog.Halts.bind hmount
    apply Prog.Halts.bind hwalk
    dsimp only
    rw [if_neg hne, load, if_neg (not_not.2 hfile)]
    exact hread.bind (.pure _ _)
  of_run out r w' hrun hret := by
    have hhint : Prog.Halts getHint w w.hint w := .access _ w
    rw [amigaFfs] at hrun
    obtain ⟨hsize, hrun⟩ := passed_check hrun (fun _ => by decide) hret
    obtain ⟨x, w₀, hmount, hafter⟩ := (hhint.bind_iff.1 hrun).of_bind
    cases x with
    | none => exact (not_early hafter (by decide) hret).elim
    | some x =>
      obtain ⟨v, buf⟩ := x
      obtain ⟨⟨n, hdr⟩, w₁, hwalk, hrest⟩ := hafter.of_bind
      dsimp only at hrest
      obtain ⟨hzero, hload⟩ := passed_check hrest (fun _ => by decide) hret
      rw [load] at hload
      obtain ⟨hfile, hload⟩ := passed_check hload (fun _ => by decide) hret
      obtain ⟨y, w₂, hread, hpure⟩ := hload.of_bind
      obtain ⟨rfl, rfl⟩ := hpure.of_pure
      exact ⟨⟨v, buf, hdr⟩, w₁, y, ⟨Nat.not_lt.1 hsize, ⟨w₀, hmount, n, hzero, hwalk⟩,
        not_not.1 hfile⟩, hread, rfl⟩

/-- An FFS volume of blocks of 512 bytes whose root block holds the file `a`, by its header in
block 1. Its size is 1, and its table has no blocks. -/
def shortDrive : Drive where
  toImageDisk := Disk.ofImage (written [be 0 4 0x444F5301, be 450560 4 tHeader,
    be 450580 4 0xFFFFFFFC, be 450608 4 1, be 451068 4 stRoot, be 512 4 tHeader, be 836 4 1,
    be 944 1 1, be 945 1 0x61, be 1020 4 stFile])
  steady _ _ _ _ := rfl

/-- `FS_LOAD` of `a`. -/
def loadA : Call := ⟨.load, ['a'], 0, 0, fun _ => 0, 512, fun _ => 0, [], 0⟩

theorem shortDrive_found : ∃ t w₁,
    FoundFile shortDrive (fun _ => 0) (fun _ => 0) loadA Rdb.boot t w₁ ∧
      t.Short shortDrive (fun _ => 0) := by
  have hfacts : ((mount shortDrive.toDisk (fun _ => 0) (fun _ => 0) 0 ⟨0, 0⟩ >>= fun x =>
      x.elim (pure none) fun x =>
        walkPath shortDrive.toDisk x.1 loadA.path (fun _ => 0) >>= fun y =>
          pure (some (Opened.mk x.1 x.2 y.2, y.1))).run 9 Rdb.boot).map
      (fun y => y.1.map fun z => (z.2, z.1.v.bsize, be32 z.1.hdr 508, be32 z.1.hdr 324,
        be32 z.1.hdr 308)) = some (some (1, 512, stFile, 1, 0)) := by
    decide +kernel
  obtain ⟨⟨z, w₁⟩, hrun, hz⟩ := Option.map_eq_some_iff.1 hfacts
  obtain ⟨⟨t, n⟩, rfl, ht⟩ := Option.map_eq_some_iff.1 hz
  obtain ⟨hn, ht⟩ := Prod.mk.inj ht
  obtain ⟨hbsize, ht⟩ := Prod.mk.inj ht
  obtain ⟨htype, ht⟩ := Prod.mk.inj ht
  obtain ⟨hsize, hptr⟩ := Prod.mk.inj ht
  obtain ⟨x, w₀, hmount, hafter⟩ := Prog.Halts.of_bind ⟨9, hrun⟩
  cases x with
  | none => cases hafter.of_pure.1
  | some x =>
    obtain ⟨v, buf⟩ := x
    obtain ⟨⟨n', hdr⟩, w₂, hwalk, hpure⟩ := hafter.of_bind
    obtain ⟨heq, rfl⟩ := hpure.of_pure
    obtain ⟨rfl, rfl⟩ := Prod.mk.inj (Option.some.inj heq)
    dsimp only at hn hbsize htype hsize hptr
    have hne : n ≠ 0 := by
      rw [hn]
      exact Nat.one_ne_zero
    have hfile : be32 hdr (offSecType v.bsize) = stFile := by
      rw [hbsize]
      exact htype
    have hone : be32 hdr (offByteSize v.bsize) = 1 := by
      rw [hbsize]
      exact hsize
    have hroom : 0 < be32 hdr (offByteSize v.bsize) := by
      rw [hone]
      exact Nat.one_pos
    have hslots : 0 < dbMax v.bsize := by
      rw [hbsize]
      decide
    have hzero : v.ptr hdr 0 = 0 := by
      rw [Volume.ptr, hbsize]
      exact hptr
    refine ⟨⟨v, buf, hdr⟩, w₁, ?_, 0, hroom, .zero (.zero hslots hzero)⟩
    exact ⟨Nat.le_refl 512, ⟨w₀, hmount, n, hne, hwalk⟩, hfile⟩

/-- `FS_LOAD` of a file without blocks reports success. -/
theorem shortDrive_truncates :
    ¬ Whole (amigaFfs shortDrive.toDisk (fun _ => 0) (fun _ => 0)) loadA Rdb.boot
      (fun n => ∃ t w₁,
        FoundFile shortDrive (fun _ => 0) (fun _ => 0) loadA Rdb.boot t w₁ ∧ n = t.size) := by
  intro hwhole
  obtain ⟨t, w₁, hfound, hshort⟩ := shortDrive_found
  have hloader := amigaFfs_loader shortDrive (fun _ => 0) (fun _ => 0) loadA Rdb.boot
  have hlong := (hloader.whole_iff fun t _ _ => opened_reads shortDrive (fun _ => 0) t).1 hwhole
  exact hlong t w₁ hfound hshort

end Ffs

namespace Sfs

/-- A file of a volume. -/
structure Opened where
  v : Volume
  target : Target

def Opened.size (t : Opened) : Nat := t.target.size

def Opened.read (d : Drive) (stack : Buf) (t : Opened) (out : Buf) : Io (Retcode × Copied) :=
  sfsReadFileContents d.toDisk stack t.v t.target.data t.target.size out

def Opened.Short (d : Drive) (stack : Buf) (t : Opened) : Prop :=
  ChainShort d t.v.partLoc (sfsLookupExtent d.toDisk stack t.v) t.target.data t.target.size

/-- `amiga_sfs` finds the file `t`. -/
structure FoundFile (d : Drive) (stack : Buf) (q : Call) (w : World) (t : Opened) (w₁ : World) :
    Prop where
  size : bsize ≤ q.size
  walk : ∃ boot w₀ w₂, Prog.Halts (readBlock d.toDisk q.loc 0 stack) w (.noError, boot) w₀ ∧
    be32 boot 0 - be32 boot 0 % 2 ^ 8 = dostypeMagic24 ∧
    Prog.Halts (sfsOpenVolume d.toDisk stack q.loc (be32 boot 0) q.buf) w₀ (some t.v) w₂ ∧
    Prog.Halts (sfsWalkPath d.toDisk stack t.v q.path) w₂ (.ok t.target) w₁
  file : ¬ (t.target.isDir ∨ t.target.isLink)

theorem opened_reads (d : Drive) (stack : Buf) (t : Opened) :
    Reads (t.read d stack) t.size (t.Short d stack) :=
  readFile_reads stack (sfsLookupExtent_steady d stack t.v) (sfsLookupExtent_fails d stack t.v) _ _

theorem amigaSfs_loader (d : Drive) (stack : Buf) (q : Call) (w : World) :
    Loader (amigaSfs d.toDisk stack) q w (FoundFile d stack q w) (Opened.read d stack) where
  unique := by
    rintro ⟨v, t⟩ w₁ ⟨v', t'⟩ w₁' ⟨-, ⟨boot, w₀, w₂, hboot, -, hopen, hwalk⟩, -⟩
      ⟨-, ⟨boot', w₀', w₂', hboot', -, hopen', hwalk'⟩, -⟩
    obtain ⟨heq, rfl⟩ := hboot.unique hboot'
    obtain ⟨-, rfl⟩ := Prod.mk.inj heq
    obtain ⟨heq, rfl⟩ := hopen.unique hopen'
    obtain rfl := Option.some.inj heq
    obtain ⟨heq, rfl⟩ := hwalk.unique hwalk'
    obtain rfl := Except.ok.inj heq
    exact ⟨rfl, rfl⟩
  reads := by
    rintro ⟨v, t⟩ w₁ out y w' ⟨hsize, ⟨boot, w₀, w₂, hboot, hmagic, hopen, hwalk⟩, hfile⟩ hread
    rw [amigaSfs, if_neg (show ¬ (q.load out).size < bsize from Nat.not_lt.2 hsize)]
    apply Prog.Halts.bind hboot
    dsimp only
    rw [afterBoot, if_neg (not_not.2 rfl), if_neg (not_not.2 hmagic)]
    apply Prog.Halts.bind hopen
    apply Prog.Halts.bind hwalk
    rw [load, if_neg hfile]
    exact Prog.Halts.bind hread (.pure _ _)
  of_run out r w' hrun hret := by
    rw [amigaSfs] at hrun
    obtain ⟨hsize, hrun⟩ := passed_check hrun (fun _ => by decide) hret
    obtain ⟨⟨ret, boot⟩, w₀, hboot, hafter⟩ := hrun.of_bind
    dsimp only at hafter
    rw [afterBoot] at hafter
    obtain ⟨x, w₃, hx, herror⟩ := readBlock_error d q.loc 0 stack w
    obtain ⟨rfl, -⟩ := hx.unique hboot
    obtain ⟨hok, hchecked⟩ := passed_check hafter (fun h => (herror h).2) hret
    obtain rfl := not_not.1 hok
    obtain ⟨hmagic, hnamed⟩ := passed_check hchecked (fun _ => by decide) hret
    obtain ⟨v, w₂, hopen, hact⟩ := hnamed.of_bind
    cases v with
    | none => exact (not_early hact (by decide) hret).elim
    | some v =>
      obtain ⟨t, w₁, hwalk, hload⟩ := hact.of_bind
      cases t with
      | error e => exact (not_early hload (by decide) hret).elim
      | ok t =>
        rw [load] at hload
        obtain ⟨hfile, hload⟩ := passed_check hload (fun _ => by decide) hret
        obtain ⟨y, w₃, hread, hpure⟩ := hload.of_bind
        obtain ⟨rfl, rfl⟩ := hpure.of_pure
        exact ⟨⟨v, t⟩, w₁, y, ⟨Nat.not_lt.1 hsize,
          ⟨boot, w₀, w₂, hboot, not_not.1 hmagic, hopen, hwalk⟩, hfile⟩, hread, rfl⟩

end Sfs

namespace Pfs

/-- A file of a volume. -/
structure Opened where
  v : Volume
  target : Target

def Opened.size (t : Opened) : Nat := t.target.size

def Opened.read (d : Drive) (stack : Buf) (t : Opened) (out : Buf) : Io (Retcode × Copied) :=
  pfsReadFile d.toDisk stack t.v t.target.anode t.target.size out

def Opened.Short (d : Drive) (stack : Buf) (t : Opened) : Prop :=
  ChainShort d t.v.partLoc (pfsGetAnode d.toDisk stack t.v) t.target.anode t.target.size

/-- `amiga_pfs3` finds the file `t`. -/
structure FoundFile (d : Drive) (stack : Buf) (q : Call) (w : World) (t : Opened) (w₁ : World) :
    Prop where
  size : bsize ≤ q.size
  walk : ∃ boot w₀ w₂, Prog.Halts (readBlock d.toDisk q.loc 0 stack) w (.noError, boot) w₀ ∧
    ¬ (be32 boot 0 ≠ dtPfs1 ∧ be32 boot 0 ≠ dtPfs2 ∧ be32 boot 0 ≠ dtAfs1) ∧
    Prog.Halts (pfsOpenVolume d.toDisk q.loc (be32 boot 0) q.buf) w₀ (some t.v) w₂ ∧
    Prog.Halts (pfsWalkPath d.toDisk stack t.v q.path) w₂ (.ok t.target) w₁
  file : ¬ (t.target.type = stUserdir ∨ t.target.type = stSoftlink ∨ t.target.type = stLinkdir ∨
    t.target.type = stLinkfileByte)

theorem opened_reads (d : Drive) (stack : Buf) (t : Opened) :
    Reads (t.read d stack) t.size (t.Short d stack) :=
  readFile_reads stack (pfsGetAnode_steady d stack t.v) (pfsGetAnode_fails d stack t.v) _ _

theorem amigaPfs3_loader (d : Drive) (stack : Buf) (q : Call) (w : World) :
    Loader (amigaPfs3 d.toDisk stack) q w (FoundFile d stack q w) (Opened.read d stack) where
  unique := by
    rintro ⟨v, t⟩ w₁ ⟨v', t'⟩ w₁' ⟨-, ⟨boot, w₀, w₂, hboot, -, hopen, hwalk⟩, -⟩
      ⟨-, ⟨boot', w₀', w₂', hboot', -, hopen', hwalk'⟩, -⟩
    obtain ⟨heq, rfl⟩ := hboot.unique hboot'
    obtain ⟨-, rfl⟩ := Prod.mk.inj heq
    obtain ⟨heq, rfl⟩ := hopen.unique hopen'
    obtain rfl := Option.some.inj heq
    obtain ⟨heq, rfl⟩ := hwalk.unique hwalk'
    obtain rfl := Except.ok.inj heq
    exact ⟨rfl, rfl⟩
  reads := by
    rintro ⟨v, t⟩ w₁ out y w' ⟨hsize, ⟨boot, w₀, w₂, hboot, hmagic, hopen, hwalk⟩, hfile⟩ hread
    rw [amigaPfs3, if_neg (show ¬ (q.load out).size < bsize from Nat.not_lt.2 hsize)]
    apply Prog.Halts.bind hboot
    dsimp only
    rw [afterBoot, if_neg (not_not.2 rfl), if_neg hmagic]
    apply Prog.Halts.bind hopen
    apply Prog.Halts.bind hwalk
    rw [load, if_neg hfile]
    exact Prog.Halts.bind hread (.pure _ _)
  of_run out r w' hrun hret := by
    rw [amigaPfs3] at hrun
    obtain ⟨hsize, hrun⟩ := passed_check hrun (fun _ => by decide) hret
    obtain ⟨⟨ret, boot⟩, w₀, hboot, hafter⟩ := hrun.of_bind
    dsimp only at hafter
    rw [afterBoot] at hafter
    obtain ⟨hok, hchecked⟩ := passed_check hafter (fun _ => by decide) hret
    obtain rfl := not_not.1 hok
    obtain ⟨hmagic, hnamed⟩ := passed_check hchecked (fun _ => by decide) hret
    obtain ⟨v, w₂, hopen, hact⟩ := hnamed.of_bind
    cases v with
    | none => exact (not_early hact (by decide) hret).elim
    | some v =>
      obtain ⟨t, w₁, hwalk, hload⟩ := hact.of_bind
      cases t with
      | error e => exact (not_early hload (by decide) hret).elim
      | ok t =>
        rw [load] at hload
        obtain ⟨hfile, hload⟩ := passed_check hload (fun _ => by decide) hret
        obtain ⟨y, w₃, hread, hpure⟩ := hload.of_bind
        obtain ⟨rfl, rfl⟩ := hpure.of_pure
        exact ⟨⟨v, t⟩, w₁, y, ⟨Nat.not_lt.1 hsize,
          ⟨boot, w₀, w₂, hboot, hmagic, hopen, hwalk⟩, hfile⟩, hread, rfl⟩

end Pfs

namespace Exfat

theorem walkEntries_ret {visit : EntrySet → χ → Int × χ} (herror : ret ≠ .noError → IsError ret)
    (h : Prog.Halts (walkEntries d stack v visit cluster sec cookie ret scratch) w (.inr e) w') :
    e.ret ≠ .rEnd := by
  rw [walkEntries] at h
  by_cases hret : ret = .noError
  · rw [if_neg (not_not.2 hret)] at h
    obtain ⟨s, w₁, hround⟩ := h.loop_last
    rw [entryRound] at hround
    by_cases hroom : s.off + 32 ≤ v.bytesPerSector
    · rw [if_pos hroom] at hround
      by_cases hend : s.scratch.nat s.off = entEndOfDir
      · rw [if_pos hend] at hround
        obtain ⟨heq, -⟩ := hround.of_pure
        obtain rfl := Sum.inr.inj (Sum.inr.inj heq)
        exact Retcode.noConfusion
      · rw [if_neg hend] at hround
        by_cases hskip : s.scratch.nat s.off ≠ entFile ∨ s.scratch.nat (s.off + 1) < 2
        · rw [if_pos hskip] at hround
          obtain ⟨heq, -⟩ := hround.of_pure
          cases heq
        · rw [if_neg hskip] at hround
          obtain ⟨⟨ok, c⟩, w₂, -, hvisit⟩ := hround.of_bind
          obtain ⟨heq, -⟩ := hvisit.of_pure
          cases hset : c.set ok s with
          | none =>
            rw [hset, visitSet] at heq
            cases heq
          | some set =>
            rw [hset, visitSet] at heq
            split_ifs at heq with hstop hneg
            · obtain rfl := Sum.inr.inj (Sum.inr.inj heq)
              exact Retcode.noConfusion
            · obtain rfl := Sum.inr.inj (Sum.inr.inj heq)
              exact Retcode.noConfusion
    · rw [if_neg hroom] at hround
      obtain ⟨heq, -⟩ := hround.of_pure
      cases Sum.inr.inj heq
  · rw [if_pos hret] at h
    obtain ⟨heq, -⟩ := h.of_pure
    obtain rfl := Sum.inr.inj heq
    exact (herror hret).2

theorem exfatWalkDir_ret {visit : EntrySet → χ → Int × χ} (d : Drive)
    (h : Prog.Halts (exfatWalkDir d.toDisk stack v visit dirCluster cookie scratch) w e w') :
    e.ret ≠ .rEnd := by
  obtain ⟨s, w₁, hround⟩ := h.loop_last
  rw [clusterRound] at hround
  by_cases hmore : v.HasCluster s.cluster ∧ s.guard < 65536
  · rw [if_pos hmore] at hround
    obtain ⟨x, w₂, hsectors, hnext⟩ := hround.of_bind
    cases x with
    | inl y =>
      obtain ⟨z, w₃, -, hpure⟩ := hnext.of_bind
      obtain ⟨heq, -⟩ := hpure.of_pure
      split_ifs at heq
      obtain rfl := Sum.inr.inj heq
      exact Retcode.noConfusion
    | inr e' =>
      obtain ⟨heq, -⟩ := hnext.of_pure
      obtain rfl := Sum.inr.inj heq
      obtain ⟨t, w₃, hsector⟩ := hsectors.loop_last
      rw [sectorRound] at hsector
      by_cases hsec : t.1 < v.sectorsPerCluster
      · rw [if_pos hsec] at hsector
        obtain ⟨⟨ret, b⟩, w₄, hread, hrest⟩ := hsector.of_bind
        obtain ⟨x, w₅, hwalk, hpure⟩ := hrest.of_bind
        obtain ⟨heq, -⟩ := hpure.of_pure
        cases x with
        | inl y => cases heq
        | inr e'' =>
          obtain rfl := Sum.inr.inj (Sum.inr.inj heq)
          apply walkEntries_ret ?_ hwalk
          intro hret
          obtain ⟨z, w₆, hz, hreads⟩ := readBlockSz_reads d v.partLoc v.bytesPerSector _ t.2.2 w₃
          obtain ⟨rfl, -⟩ := hz.unique hread
          cases hreads with
          | inl hok => exact absurd hok.1 hret
          | inr hno => exact hno.1
      · rw [if_neg hsec] at hsector
        obtain ⟨heq, -⟩ := hsector.of_pure
        cases Sum.inr.inj heq
  · rw [if_neg hmore] at hround
    obtain ⟨heq, -⟩ := hround.of_pure
    obtain rfl := Sum.inr.inj heq
    exact Retcode.noConfusion

/-- A file of a volume, by the end of the walk that has found it. -/
structure Opened where
  v : Volume
  found : WalkEnd FindCookie

def Opened.size (t : Opened) : Nat := t.found.cookie.dataLen

def Opened.noFat (t : Opened) : Bool := t.found.cookie.flags.testBit 1

def Opened.read (d : Drive) (t : Opened) (out : Buf) : Io (Retcode × Copied) :=
  exfatReadContents d.toDisk t.v t.found.cookie.firstCluster t.size t.noFat out t.found.scratch

def Opened.Short (d : Drive) (t : Opened) : Prop :=
  ClustersShort d t.v t.noFat t.found.cookie.firstCluster t.size

/-- `fs_exfat` finds the file `t`. -/
structure FoundFile (d : Drive) (stack : Buf) (q : Call) (w : World) (t : Opened) (w₁ : World) :
    Prop where
  size : 512 ≤ q.size
  path : q.path.dropWhile isSep ≠ [] ∧ u32 (tail (q.path.dropWhile isSep)).length ≠ 0
  walk : ∃ w₀, Prog.Halts (exfatOpenVolume d.toDisk q.loc q.buf) w (some t.v) w₀ ∧
    Prog.Halts (exfatWalkDir d.toDisk stack t.v (exfatVisitFind (tail (q.path.dropWhile isSep)))
      t.v.rootCluster ⟨0, 0, 0, false⟩ stack) w₀ t.found w₁
  file : t.found.ret = .noError ∧ t.found.cookie.found = true

theorem exfatOpenVolume_bytes (h : Prog.Halts (exfatOpenVolume d loc buf) w (some v) w') :
    v.bytesPerSector = 512 := by
  obtain ⟨⟨ret, b⟩, w₁, -, hpure⟩ := h.of_bind
  obtain ⟨heq, -⟩ := hpure.of_pure
  split_ifs at heq with hboot
  obtain rfl := Option.some.inj heq
  exact hboot.2.accepted.bytes

theorem FoundFile.reads (h : FoundFile d stack q w t w₁) : Reads (t.read d) t.size (t.Short d) := by
  obtain ⟨w₀, hopen, -⟩ := h.walk
  exact exfatReadContents_reads d (exfatOpenVolume_bytes hopen) t.noFat _ _ t.found.scratch

theorem fsExfat_loader (d : Drive) (stack : Buf) (q : Call) (w : World) :
    Loader (fsExfat d.toDisk stack) q w (FoundFile d stack q w) (Opened.read d) where
  unique := by
    rintro ⟨v, e⟩ w₁ ⟨v', e'⟩ w₁' ⟨-, -, ⟨w₀, hopen, hwalk⟩, -⟩ ⟨-, -, ⟨w₀', hopen', hwalk'⟩, -⟩
    obtain ⟨heq, rfl⟩ := hopen.unique hopen'
    obtain rfl := Option.some.inj heq
    obtain ⟨rfl, rfl⟩ := hwalk.unique hwalk'
    exact ⟨rfl, rfl⟩
  reads := by
    rintro ⟨v, e⟩ w₁ out y w' ⟨hsize, ⟨hpath, hname⟩, ⟨w₀, hopen, hwalk⟩, hret, hfound⟩ hread
    rw [fsExfat, if_neg (show ¬ (q.load out).size < 512 from Nat.not_lt.2 hsize)]
    apply Prog.Halts.bind hopen
    show Prog.Halts (act d.toDisk stack v (q.load out) .load) _ _ _
    rw [act]
    rw [if_neg (show (q.load out).path.dropWhile isSep ≠ [] from hpath),
      if_neg (show u32 (tail ((q.load out).path.dropWhile isSep)).length ≠ 0 from hname)]
    apply Prog.Halts.bind hwalk
    rw [load, if_neg (not_not.2 hret), if_pos hfound]
    exact Prog.Halts.bind hread (.pure _ _)
  of_run out r w' hrun hret := by
    rw [fsExfat] at hrun
    obtain ⟨hsize, hrun⟩ := passed_check hrun (fun _ => by decide) hret
    obtain ⟨v, w₀, hopen, hact⟩ := hrun.of_bind
    cases v with
    | none => exact (not_early hact (by decide) hret).elim
    | some v =>
      have hact : Prog.Halts (act d.toDisk stack v (q.load out) .load) w₀ r w' := hact
      rw [act] at hact
      obtain ⟨hpath, hact⟩ := passed_check hact (fun _ => by decide) hret
      obtain ⟨hname, hact⟩ := passed_check hact (fun _ => by decide) hret
      obtain ⟨e, w₁, hwalk, hload⟩ := hact.of_bind
      rw [load] at hload
      obtain ⟨hok, hload⟩ := passed_check hload (fun _ => exfatWalkDir_ret d hwalk) hret
      by_cases hfound : e.cookie.found = true
      · rw [if_pos hfound] at hload
        obtain ⟨y, w₃, hread, hpure⟩ := hload.of_bind
        obtain ⟨rfl, rfl⟩ := hpure.of_pure
        exact ⟨⟨v, e⟩, w₁, y, ⟨Nat.not_lt.1 hsize, ⟨hpath, hname⟩, ⟨w₀, hopen, hwalk⟩,
          not_not.1 hok, hfound⟩, hread, rfl⟩
      · rw [if_neg hfound] at hload
        exact (not_early hload (by decide) hret).elim

end Exfat

/-- Each reader loads files in full, or reports an error, if and only if the blocks of no file that
it finds end before its size has been reached. -/
theorem loads_whole_iff (d : Drive) (stack iobuf : Buf) (q : Call) (w : World) :
    (Whole (Ffs.amigaFfs d.toDisk stack iobuf) q w
        (fun n => ∃ t w₁, Ffs.FoundFile d stack iobuf q w t w₁ ∧ n = t.size) ↔
      ∀ t w₁, Ffs.FoundFile d stack iobuf q w t w₁ → ¬ t.Short d stack) ∧
    (Whole (Sfs.amigaSfs d.toDisk stack) q w
        (fun n => ∃ t w₁, Sfs.FoundFile d stack q w t w₁ ∧ n = t.size) ↔
      ∀ t w₁, Sfs.FoundFile d stack q w t w₁ → ¬ t.Short d stack) ∧
    (Whole (Pfs.amigaPfs3 d.toDisk stack) q w
        (fun n => ∃ t w₁, Pfs.FoundFile d stack q w t w₁ ∧ n = t.size) ↔
      ∀ t w₁, Pfs.FoundFile d stack q w t w₁ → ¬ t.Short d stack) ∧
    (Whole (Exfat.fsExfat d.toDisk stack) q w
        (fun n => ∃ t w₁, Exfat.FoundFile d stack q w t w₁ ∧ n = t.size) ↔
      ∀ t w₁, Exfat.FoundFile d stack q w t w₁ → ¬ t.Short d) :=
  ⟨(Ffs.amigaFfs_loader d stack iobuf q w).whole_iff fun t _ _ => Ffs.opened_reads d stack t,
    (Sfs.amigaSfs_loader d stack q w).whole_iff fun t _ _ => Sfs.opened_reads d stack t,
    (Pfs.amigaPfs3_loader d stack q w).whole_iff fun t _ _ => Pfs.opened_reads d stack t,
    (Exfat.fsExfat_loader d stack q w).whole_iff fun _ _ hfound => hfound.reads⟩

end Pegasos2.Fs
