import Pegasos2.IsoWalk

namespace Pegasos2.Fs
open Program
set_option autoImplicit true

namespace Iso

section

variable {t : Disc} {q : Call} (hsize : q.size = t.iosize)

include hsize

theorem walkRound_next (hwhat : q.what = .load)
    (h : Prog.Halts (walkRound (steady t.medium) t.heap q t.blocksize s) w (.inl s') w') :
    s.dir.isDirectory = true ∧ s'.path = (nextName s.path).2 ∧ s'.path ≠ [] ∧
      (((nextName s.path).1 = [] ∧ s'.dir = s.dir) ∨
        ((nextName s.path).1 ≠ [] ∧ t.HasEntry s.dir (nextName s.path).1 s'.dir)) := by
  rw [walkRound] at h
  by_cases hdir : s.dir.isDirectory = true
  · rw [if_pos hdir] at h
    by_cases hname : (nextName s.path).1 = []
    · rw [if_pos hname] at h
      obtain ⟨rfl, hpath⟩ := afterSearch_next hwhat h
      exact ⟨hdir, rfl, hpath, .inl ⟨hname, rfl⟩⟩
    · rw [if_neg hname] at h
      obtain ⟨r, hr, -⟩ | ⟨e, iobuf', w₁, hentry, hrest⟩ := enterName_cases hsize h
      · exact absurd hr Sum.inl_ne_inr
      · obtain ⟨rfl, hpath⟩ := afterSearch_next hwhat hrest
        exact ⟨hdir, rfl, hpath, .inr ⟨hname, hentry⟩⟩
  · rw [if_neg hdir] at h
    exact absurd h.of_pure.1 Sum.inl_ne_inr

theorem walkRound_done (hwhat : q.what = .load) {r : Reply}
    (h : Prog.Halts (walkRound (steady t.medium) t.heap q t.blocksize s) w (.inr r) w')
    (hret : ¬ Failed r) : ∃ l, t.FileAt s.dir s.path l := by
  rw [walkRound] at h
  by_cases hdir : s.dir.isDirectory = true
  · rw [if_pos hdir] at h
    by_cases hname : (nextName s.path).1 = []
    · rw [if_pos hname] at h
      obtain ⟨-, hfile, -⟩ := afterSearch_done hsize hwhat h hret
      exact absurd (hdir.symm.trans hfile) Bool.noConfusion
    · rw [if_neg hname] at h
      obtain ⟨r', hr, hfailed⟩ | ⟨e, iobuf', w₁, hentry, hrest⟩ := enterName_cases hsize h
      · obtain rfl := Sum.inr.inj hr
        exact absurd hfailed hret
      · obtain ⟨hpath, hfile, l, hl⟩ := afterSearch_done hsize hwhat hrest hret
        exact ⟨l, e, .file hdir hname hentry hpath hfile, hl⟩
  · rw [if_neg hdir] at h
    obtain rfl := Sum.inr.inj h.of_pure.1
    exact absurd (.inl rfl) hret

theorem walkRound_back (hwhat : q.what = .load)
    (h : Prog.Halts (walkRound (steady t.medium) t.heap q t.blocksize s) w (.inl s') w')
    (hfile : t.FileAt s'.dir s'.path l) : t.FileAt s.dir s.path l := by
  obtain ⟨hdir, hpath, hne, hstep⟩ := walkRound_next hsize hwhat h
  obtain ⟨e, hnames, hl⟩ := hfile
  rw [hpath] at hne hnames
  cases hstep with
  | inl hskip =>
    rw [hskip.2] at hnames
    exact ⟨e, .skip hdir hskip.1 hne hnames, hl⟩
  | inr henter => exact ⟨e, .enter hdir henter.1 henter.2 hne hnames, hl⟩

theorem fileAt_of_walk (hwhat : q.what = .load) {r : Reply}
    (h : Prog.Halts (.loop (walkRound (steady t.medium) t.heap q t.blocksize) s) w r w')
    (hret : ¬ Failed r) : ∃ l, t.FileAt s.dir s.path l := by
  -- the file that the rest of the path names is the one that the whole path names
  apply Prog.Halts.loop_invariant (fun s' _ => (∃ l, t.FileAt s'.dir s'.path l) →
    ∃ l, t.FileAt s.dir s.path l) (Q := fun r _ => ¬ Failed r →
    ∃ l, t.FileAt s.dir s.path l) _ _ id h hret
  · intro s₁ w₁ s₂ w₂ hinv hround hrest
    obtain ⟨l, hl⟩ := hrest
    exact hinv ⟨l, walkRound_back hsize hwhat hround hl⟩
  · intro s₁ w₁ r w₂ hinv hround hr
    exact hinv (walkRound_done hsize hwhat hround hr)

theorem walk_of_names (hwhat : q.what = .load) {dir : Dir} (h : t.Names dir path e)
    (hl : t.Contents e l) (iobuf : Buf) (w : World) :
    ∃ w', Prog.Halts (.loop (walkRound (steady t.medium) t.heap q t.blocksize)
      ⟨dir, path, iobuf⟩) w (loaded q .noError l) w' := by
  induction h generalizing iobuf w with
  | @skip path e dir hdir hname hrest h ih =>
    obtain ⟨w', hrun⟩ := ih hl iobuf w
    refine ⟨w', Prog.Halts.loop_next ?_ hrun⟩
    rw [walkRound, if_pos hdir, if_pos hname, afterSearch, if_pos hrest]
    exact .pure _ _
  | @enter path sub e dir hdir hname hentry hrest h ih =>
    obtain ⟨iobuf', w₁, hsearch⟩ :=
      enterName_of_hasEntry hsize hentry (nextName path).2 iobuf w
    obtain ⟨w', hrun⟩ := ih hl iobuf' w₁
    refine ⟨w', Prog.Halts.loop_next ?_ hrun⟩
    rw [walkRound, if_pos hdir, if_neg hname]
    apply hsearch
    rw [afterSearch, if_pos hrest]
    exact .pure _ _
  | @file path dir e hdir hname hentry hrest hfile =>
    obtain ⟨iobuf', w₁, hsearch⟩ :=
      enterName_of_hasEntry hsize hentry (nextName path).2 iobuf w
    obtain ⟨w', hrun⟩ := afterSearch_file hsize hwhat
      (s := ⟨e, (nextName path).2, iobuf'⟩) hrest hfile hl w₁
    refine ⟨w', Prog.Halts.loop_done ?_⟩
    rw [walkRound, if_pos hdir, if_neg hname]
    exact hsearch _ _ hrun

end

section

variable {m : Nat → Nat → Outcome} {heap : Heap}

/-- The volume descriptor at `loc`: the first of some blocks that has the identifier of one. The
blocks are read into `ipd`. -/
inductive Descriptor (m : Nat → Nat → Outcome) (iosize loc : Nat) : List Nat → Buf → Buf → Prop
  | here (h : Reads m (min iosize blockSize) (u64 (loc + bnum * blockSize)) blockSize l)
      (hid : bytes (put ipd 0 l) 1 5 = isoStandardId) :
      Descriptor m iosize loc (bnum :: rest) ipd (put ipd 0 l)
  | next (h : Reads m (min iosize blockSize) (u64 (loc + bnum * blockSize)) blockSize l)
      (hid : bytes (put ipd 0 l) 1 5 ≠ isoStandardId)
      (hrest : Descriptor m iosize loc rest (put ipd 0 l) found) :
      Descriptor m iosize loc (bnum :: rest) ipd found

theorem Descriptor.unique (h : Descriptor m iosize loc bnums ipd found)
    (h' : Descriptor m iosize loc bnums ipd found') : found = found' := by
  induction h generalizing found' with
  | here h hid =>
    cases h' with
    | here h' =>
      obtain rfl := h.unique h'
      rfl
    | next h' hid' =>
      obtain rfl := h.unique h'
      exact absurd hid hid'
  | next h hid hrest ih =>
    cases h' with
    | here h' hid' =>
      obtain rfl := h.unique h'
      exact absurd hid' hid
    | next h' hid' hrest' =>
      obtain rfl := h.unique h'
      exact ih hrest'

theorem findDescriptor_of_descriptor {q : Call} (heap : Heap)
    (h : Descriptor m q.size q.loc bnums ipd found) (iobuf : Buf) (w : World) :
    ∃ iobuf' w₁, ∀ r w', Prog.Halts (withDescriptor (steady m) heap q found iobuf') w₁ r w' →
      Prog.Halts (findDescriptor (steady m) heap q bnums ipd iobuf) w r w' := by
  induction h generalizing iobuf w with
  | @here bnum l ipd rest h hid =>
    obtain ⟨iobuf', w₁, hread⟩ := isoReadBlocks_of_reads h ipd iobuf w
    refine ⟨iobuf', w₁, fun r w' hrest => ?_⟩
    rw [findDescriptor]
    apply hread.bind
    dsimp only
    rw [if_neg (not_not.2 rfl), if_pos hid]
    exact hrest
  | @next bnum l ipd rest found h hid hrest ih =>
    obtain ⟨iobuf', w₁, hread⟩ := isoReadBlocks_of_reads h ipd iobuf w
    obtain ⟨iobuf'', w₂, hfind⟩ := ih iobuf' w₁
    refine ⟨iobuf'', w₂, fun r w' hrun => ?_⟩
    rw [findDescriptor]
    apply hread.bind
    dsimp only
    rw [if_neg (not_not.2 rfl), if_neg hid]
    exact hfind r w' hrun

theorem findDescriptor_rEnd {r : Reply}
    (h : Prog.Halts (findDescriptor (steady m) heap q bnums ipd iobuf) w r w')
    (hret : r.ret = .rEnd) :
    ∃ found iobuf' w₁, Descriptor m q.size q.loc bnums ipd found ∧
      Prog.Halts (withDescriptor (steady m) heap q found iobuf') w₁ r w' := by
  induction bnums generalizing ipd iobuf w with
  | nil =>
    obtain rfl := h.of_pure.1
    exact absurd hret Retcode.noConfusion
  | cons bnum bnums ih =>
    rw [findDescriptor] at h
    obtain ⟨⟨ret, b, iobuf'⟩, w₁, hread, hrest⟩ := h.of_bind
    dsimp only at hrest
    by_cases hnone : ret = .noError
    · obtain ⟨l, hl, hb⟩ := isoReadBlocks_noError hread hnone
      obtain rfl : b = put ipd 0 l := hb
      rw [if_neg (not_not.2 hnone)] at hrest
      by_cases hid : bytes (put ipd 0 l) 1 5 = isoStandardId
      · rw [if_pos hid] at hrest
        exact ⟨_, iobuf', w₁, .here hl hid, hrest⟩
      · rw [if_neg hid] at hrest
        obtain ⟨found, iobuf'', w₂, hfound, hrun⟩ := ih hrest
        exact ⟨found, iobuf'', w₂, .next hl hid hfound, hrun⟩
    · rw [if_pos hnone] at hrest
      obtain rfl := hrest.of_pure.1
      exact absurd hret (isoReadBlocks_ne_rEnd hread)

/-- The call `q` as one that loads a path. -/
def loadOf (q : Call) (path : List Char) : Call := { q with what := .load, path }

/-- The file at a path of the volume of a call has the contents `l`. -/
def HoldsFile (m : Nat → Nat → Outcome) (heap : Heap) (stack : Buf) (q : Call)
    (path : List Char) (l : List UInt8) : Prop :=
  ∃ ipd, Descriptor m q.size q.loc ((List.range 16).map (16 + ·)) stack ipd ∧
    (⟨m, q.size, le16 ipd 128, heap⟩ : Disc).FileAt ⟨ipd, 156⟩ (skipRoot path) l

/-- A file system loads a path: the call ends with `R_END`, from whatever state. -/
def Loads (fs : Call → Io Reply) (q : Call) (path : List Char) (r : Reply) : Prop :=
  path ≠ [] ∧ r.ret = .rEnd ∧ ∀ w, ∃ w', Prog.Halts (fs (loadOf q path)) w r w'

theorem iso9660_of_holdsFile (hpath : path ≠ []) (h : HoldsFile m heap stack q path l)
    (w : World) :
    ∃ w', Prog.Halts (iso9660 (steady m) heap stack (loadOf q path)) w (loaded q .rEnd l) w' := by
  obtain ⟨ipd, hdesc, e, hnames, hl⟩ := h
  obtain ⟨iobuf, w₁, hfind⟩ := findDescriptor_of_descriptor (q := loadOf q path) heap hdesc q.buf w
  obtain ⟨w', hwalk⟩ := walk_of_names (q := loadOf q path) rfl rfl hnames hl iobuf w₁
  refine ⟨w', hfind _ _ ?_⟩
  show Prog.Halts (if path ≠ [] then _ else _) w₁ _ w'
  rw [if_pos hpath]
  exact hwalk.bind (.pure _ _)

theorem holdsFile_of_iso9660 (hpath : path ≠ []) {r : Reply}
    (h : Prog.Halts (iso9660 (steady m) heap stack (loadOf q path)) w r w')
    (hret : r.ret = .rEnd) : ∃ l, HoldsFile m heap stack q path l := by
  obtain ⟨ipd, iobuf, w₁, hdesc, hrun⟩ := findDescriptor_rEnd h hret
  have hrun' : Prog.Halts (if path ≠ [] then do
      let r ← isoWalk (steady m) heap (loadOf q path) ipd iobuf
      pure { r with ret := if r.ret = .noError then .rEnd else r.ret }
    else pure ((loadOf q path).reply .rEnd)) w₁ r w' := hrun
  rw [if_pos hpath] at hrun'
  obtain ⟨r', w₂, hwalk, hrest⟩ := hrun'.of_bind
  obtain ⟨rfl, -⟩ := hrest.of_pure
  have hfailed : ¬ Failed r' := by
    intro hfailed
    dsimp only at hret
    cases hfailed with
    | inl hno =>
      rw [hno] at hret
      exact Retcode.noConfusion hret
    | inr hno =>
      rw [hno] at hret
      exact Retcode.noConfusion hret
  obtain ⟨l, hl⟩ := fileAt_of_walk (q := loadOf q path) (t := ⟨m, q.size, le16 ipd 128, heap⟩) rfl
    rfl hwalk hfailed
  exact ⟨l, ipd, hdesc, hl⟩

theorem iso9660_loads_iff (m : Nat → Nat → Outcome) (heap : Heap) (stack : Buf) (q : Call)
    (path : List Char) (r : Reply) :
    Loads (iso9660 (steady m) heap stack) q path r ↔
      path ≠ [] ∧ ∃ l, HoldsFile m heap stack q path l ∧ r = loaded q .rEnd l := by
  constructor
  · intro h
    obtain ⟨hpath, hret, hrun⟩ := h
    obtain ⟨w', hw'⟩ := hrun ⟨0, ⟨0, 0⟩, 0, [], []⟩
    obtain ⟨l, hl⟩ := holdsFile_of_iso9660 hpath hw' hret
    obtain ⟨w'', hw''⟩ := iso9660_of_holdsFile hpath hl ⟨0, ⟨0, 0⟩, 0, [], []⟩
    exact ⟨hpath, l, hl, (hw'.unique hw'').1⟩
  · intro h
    obtain ⟨hpath, l, hl, rfl⟩ := h
    exact ⟨hpath, rfl, iso9660_of_holdsFile hpath hl⟩

theorem normalized_ne_nil (h : path ≠ []) : normalized path ≠ [] := by
  rw [normalized]
  by_cases hcut : ';' ∈ path ∧ 0 < (path.takeWhile (· != ';')).length ∧
      (path.takeWhile (· != ';')).length < strSize
  · rw [if_pos hcut]
    exact List.ne_nil_of_length_pos hcut.2.1
  · rw [if_neg hcut]
    exact h

theorem compat_loads_iff (m : Nat → Nat → Outcome) (heap : Heap) (stack : Buf) (q : Call)
    (path : List Char) (r : Reply) :
    Loads (iso9660CompatAction (steady m) heap stack) q path r ↔
      path ≠ [] ∧ ∃ l, HoldsFile m heap stack q (normalized path) l ∧ r = loaded q .rEnd l := by
  constructor
  · intro h
    obtain ⟨hpath, hret, hrun⟩ := h
    obtain ⟨-, hl⟩ := (iso9660_loads_iff m heap stack q (normalized path) r).1
      ⟨normalized_ne_nil hpath, hret, hrun⟩
    exact ⟨hpath, hl⟩
  · intro h
    obtain ⟨hpath, hl⟩ := h
    obtain ⟨-, hret, hrun⟩ := (iso9660_loads_iff m heap stack q (normalized path) r).2
      ⟨normalized_ne_nil hpath, hl⟩
    exact ⟨hpath, hret, hrun⟩

end

end Iso
end Pegasos2.Fs
