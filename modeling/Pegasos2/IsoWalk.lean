import Pegasos2.IsoReads

namespace Pegasos2.Fs
open Program
set_option autoImplicit true

namespace Iso

/-- A disc as `iso_walk` meets it: what a read gets, the size of a read, the size of a logical
block, and what `malloc` returns. -/
structure Disc where
  medium : Nat → Nat → Outcome
  iosize : Nat
  blocksize : Nat
  heap : Heap

namespace Disc

/-- The bytes that a record describes. -/
def Contents (t : Disc) (e : Dir) (l : List UInt8) : Prop :=
  Reads t.medium (min t.iosize blockSize) (u32 (e.extent * t.blocksize)) e.size l

/-- `e` is the record that a directory has for a name. -/
def HasEntry (t : Disc) (dir : Dir) (name : List Char) (e : Dir) : Prop :=
  ∃ buf l off, t.heap dir.size = some buf ∧ t.Contents dir l ∧
    search (put buf 0 l) dir.size t.blocksize (pathBytes name) dir.size 0 = some off ∧
    e = ⟨put buf 0 l, off⟩

/-- A path names a file, from a directory on. Its empty components stand for the directory that
they are met in, and the file may be followed by a separator. -/
inductive Names (t : Disc) : Dir → List Char → Dir → Prop
  | skip {dir : Dir} (hdir : dir.isDirectory = true) (hname : (nextName path).1 = [])
      (hrest : (nextName path).2 ≠ []) (h : Names t dir (nextName path).2 e) : Names t dir path e
  | enter {dir : Dir} (hdir : dir.isDirectory = true) (hname : (nextName path).1 ≠ [])
      (hentry : t.HasEntry dir (nextName path).1 sub) (hrest : (nextName path).2 ≠ [])
      (h : Names t sub (nextName path).2 e) : Names t dir path e
  | file {dir e : Dir} (hdir : dir.isDirectory = true) (hname : (nextName path).1 ≠ [])
      (hentry : t.HasEntry dir (nextName path).1 e) (hrest : (nextName path).2 = [])
      (hfile : e.isDirectory = false) : Names t dir path e

/-- The path names a file with the contents `l`, from the directory `dir` on. -/
def FileAt (t : Disc) (dir : Dir) (path : List Char) (l : List UInt8) : Prop :=
  ∃ e, t.Names dir path e ∧ t.Contents e l

theorem HasEntry.unique {t : Disc} (h : t.HasEntry dir name e) (h' : t.HasEntry dir name e') :
    e = e' := by
  obtain ⟨buf, l, off, hbuf, hl, hoff, rfl⟩ := h
  obtain ⟨buf', l', off', hbuf', hl', hoff', rfl⟩ := h'
  obtain rfl := Option.some.inj (hbuf.symm.trans hbuf')
  obtain rfl := hl.unique hl'
  rw [Option.some.inj (hoff.symm.trans hoff')]

end Disc

/-- The reply to a call that has loaded `l`. -/
def loaded (q : Call) (ret : Retcode) (l : List UInt8) : Reply :=
  { q.reply ret with retbuf := put q.retbuf 0 l, val := l.length }

/-- How `iso_walk` fails. -/
def Failed (r : Reply) : Prop := r.ret = .eNoFile ∨ r.ret = .eOutOfMemory

section

variable {t : Disc} {q : Call} (hsize : q.size = t.iosize)

include hsize

theorem readExtent_of_contents {dir : Dir} (h : t.Contents dir l) (buf iobuf : Buf) (w : World) :
    ∃ iobuf' w', Prog.Halts (readExtent (steady t.medium) q t.blocksize dir buf iobuf) w
      (.noError, put buf 0 l, iobuf') w' := by
  rw [readExtent, hsize]
  exact isoReadBlocks_of_reads h buf iobuf w

theorem readExtent_noError {dir : Dir} {x : Retcode × Buf × Buf}
    (h : Prog.Halts (readExtent (steady t.medium) q t.blocksize dir buf iobuf) w x w')
    (hret : x.1 = .noError) : ∃ l, t.Contents dir l ∧ x.2.1 = put buf 0 l := by
  rw [readExtent, hsize] at h
  exact isoReadBlocks_noError h hret

theorem loadFile_of_contents {s : Pos} (h : t.Contents s.dir l) (w : World) :
    ∃ w', Prog.Halts (loadFile (steady t.medium) q t.blocksize s) w (loaded q .noError l) w' := by
  obtain ⟨iobuf, w', hread⟩ := readExtent_of_contents hsize h q.retbuf s.iobuf w
  refine ⟨w', hread.bind ?_⟩
  rw [loaded, Reads.length h]
  exact .pure _ _

theorem loadFile_contents {s : Pos} {r : Reply}
    (h : Prog.Halts (loadFile (steady t.medium) q t.blocksize s) w r w')
    (hret : ¬ Failed r) : ∃ l, t.Contents s.dir l := by
  obtain ⟨⟨ret, buf, iobuf⟩, w₁, hread, hrest⟩ := h.of_bind
  obtain ⟨rfl, -⟩ := hrest.of_pure
  by_cases hne : ret = .noError
  · obtain ⟨l, hl, -⟩ := readExtent_noError hsize hread hne
    exact ⟨l, hl⟩
  · dsimp only at hret
    rw [if_pos hne] at hret
    exact absurd (.inl rfl) hret

omit hsize in
theorem afterSearch_next (hwhat : q.what = .load)
    (h : Prog.Halts (afterSearch d heap q blocksize s) w (.inl s') w') :
    s' = s ∧ s.path ≠ [] := by
  rw [afterSearch] at h
  by_cases hpath : s.path = []
  · rw [if_neg (not_not.2 hpath)] at h
    by_cases hdir : s.dir.isDirectory = true
    · rw [if_pos hdir, if_pos (by rw [hwhat]; decide)] at h
      exact absurd h.of_pure.1 Sum.inl_ne_inr
    · rw [if_neg hdir, if_neg (by rw [hwhat]; decide)] at h
      obtain ⟨r, w₁, -, hrest⟩ := h.of_bind
      exact absurd hrest.of_pure.1 Sum.inl_ne_inr
  · rw [if_pos hpath] at h
    exact ⟨Sum.inl.inj h.of_pure.1, hpath⟩

theorem afterSearch_done (hwhat : q.what = .load) {r : Reply}
    (h : Prog.Halts (afterSearch (steady t.medium) t.heap q t.blocksize s) w (.inr r) w')
    (hret : ¬ Failed r) :
    s.path = [] ∧ s.dir.isDirectory = false ∧ ∃ l, t.Contents s.dir l := by
  rw [afterSearch] at h
  by_cases hpath : s.path = []
  · rw [if_neg (not_not.2 hpath)] at h
    by_cases hdir : s.dir.isDirectory = true
    · rw [if_pos hdir, if_pos (by rw [hwhat]; decide)] at h
      obtain rfl := Sum.inr.inj h.of_pure.1
      exact absurd (.inl rfl) hret
    · rw [if_neg hdir, if_neg (by rw [hwhat]; decide)] at h
      obtain ⟨r', w₁, hload, hrest⟩ := h.of_bind
      obtain rfl := Sum.inr.inj hrest.of_pure.1
      exact ⟨hpath, Bool.eq_false_iff.2 hdir, loadFile_contents hsize hload hret⟩
  · rw [if_pos hpath] at h
    exact absurd h.of_pure.1.symm Sum.inl_ne_inr

theorem afterSearch_file (hwhat : q.what = .load) (hpath : s.path = [])
    (hfile : s.dir.isDirectory = false) (h : t.Contents s.dir l) (w : World) :
    ∃ w', Prog.Halts (afterSearch (steady t.medium) t.heap q t.blocksize s) w
      (.inr (loaded q .noError l)) w' := by
  obtain ⟨w', hload⟩ := loadFile_of_contents hsize h w
  rw [afterSearch, if_neg (not_not.2 hpath), if_neg (by rw [hfile]; decide),
    if_neg (by rw [hwhat]; decide)]
  exact ⟨w', hload.bind (.pure _ _)⟩

/-- The search for a component succeeds exactly when the directory has a record for it. -/
theorem enterName_of_hasEntry (h : t.HasEntry dir name e) (path : List Char) (iobuf : Buf)
    (w : World) :
    ∃ iobuf' w₁, ∀ x w', Prog.Halts (afterSearch (steady t.medium) t.heap q t.blocksize
        ⟨e, path, iobuf'⟩) w₁ x w' →
      Prog.Halts (enterName (steady t.medium) t.heap q t.blocksize dir name path iobuf) w x w' := by
  obtain ⟨buf, l, off, hbuf, hl, hoff, rfl⟩ := h
  obtain ⟨iobuf', w₁, hread⟩ := readExtent_of_contents hsize hl buf iobuf w
  refine ⟨iobuf', w₁, fun x w' hrest => ?_⟩
  rw [enterName, hbuf]
  apply hread.bind
  dsimp only
  rw [if_neg (not_not.2 rfl), hoff]
  exact hrest

theorem enterName_cases {x : Pos ⊕ Reply}
    (h : Prog.Halts (enterName (steady t.medium) t.heap q t.blocksize dir name path iobuf) w x w') :
    (∃ r, x = .inr r ∧ Failed r) ∨
      ∃ e iobuf' w₁, t.HasEntry dir name e ∧
        Prog.Halts (afterSearch (steady t.medium) t.heap q t.blocksize ⟨e, path, iobuf'⟩) w₁ x
          w' := by
  rw [enterName] at h
  cases hbuf : t.heap dir.size with
  | none =>
    rw [hbuf] at h
    exact .inl ⟨_, h.of_pure.1, .inr rfl⟩
  | some buf =>
    rw [hbuf] at h
    obtain ⟨⟨ret, b, iobuf'⟩, w₁, hread, hrest⟩ := h.of_bind
    dsimp only at hrest
    by_cases hret : ret = .noError
    · obtain ⟨l, hl, hb⟩ := readExtent_noError hsize hread hret
      obtain rfl : b = put buf 0 l := hb
      rw [if_neg (not_not.2 hret)] at hrest
      cases hoff : search (put buf 0 l) dir.size t.blocksize (pathBytes name) dir.size 0 with
      | none =>
        rw [hoff] at hrest
        exact .inl ⟨_, hrest.of_pure.1, .inl rfl⟩
      | some off =>
        rw [hoff] at hrest
        exact .inr ⟨_, iobuf', w₁, ⟨buf, l, off, hbuf, hl, hoff, rfl⟩, hrest⟩
    · rw [if_pos hret] at hrest
      exact .inl ⟨_, hrest.of_pure.1, .inl rfl⟩

end

end Iso
end Pegasos2.Fs
