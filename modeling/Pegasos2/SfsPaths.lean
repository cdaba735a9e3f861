import Pegasos2.PathWalks
import Pegasos2.SfsDirectories
import Pegasos2.SfsRoundTrip

namespace Pegasos2.Fs
open Program
open PartitionPkg (Agree)
open Tokens (EndsSep)
open Ffs (components)
set_option autoImplicit true

namespace Sfs

/-- `g_sfs` is about the partition at `loc`: the root block is block 0 or 1, and the root directory
is that of the object in the container that it names. -/
structure IsOpen (v : Volume) (loc : Nat) (block : Nat → Option Buf) : Prop where
  partLoc : v.partLoc = loc
  root : ∃ p root oc, (p = 0 ∨ p = 1) ∧ block p = some root ∧ be32 root 8 = p ∧
    block (be32 root 104) = some oc ∧ v.caseSens = (root.nat 20).testBit 7 ∧
    v.rootDirFirstOc = be32 oc (24 + 16)

theorem findRoot_yields {d : Disk} (hd : d.HasBlocks loc block) (bs : List Nat) (buf : Buf) :
    Prog.Yields (findRoot d loc bs buf) fun x => ∀ b, x = some b →
      ∃ p root, p ∈ bs ∧ block p = some root ∧ Agree bsize b root ∧ be32 root 8 = p := by
  induction bs generalizing buf with
  | nil => exact Prog.Yields.pure fun b hb => absurd hb (Option.some_ne_none b).symm
  | cons p bs ih =>
    apply Prog.Yields.bind (hd p buf)
    rintro ⟨ret, b⟩ hread
    dsimp only at hread ⊢
    split_ifs with hroot
    · apply Prog.Yields.pure
      intro b' hb'
      obtain rfl := Option.some.inj hb'
      obtain ⟨-, root, hp, hagree⟩ | ⟨hret, -⟩ := hread
      · have hown : be32 b 8 = be32 root 8 := hagree.be32 (by decide)
        exact ⟨p, root, List.mem_cons_self, hp, hagree, hown.symm.trans hroot.2.2⟩
      · exact absurd hroot.1 hret
    · apply (ih b).mono
      intro x hx b' hb'
      obtain ⟨q, root, hq, hrest⟩ := hx b' hb'
      exact ⟨q, root, List.mem_cons_of_mem p hq, hrest⟩

theorem sfsOpenVolume_isOpen {d : Disk} (hd : d.HasBlocks loc block) (stack : Buf) (dostype : Nat)
    (buf : Buf) :
    Prog.Yields (sfsOpenVolume d stack loc dostype buf) fun x => ∀ v, x = some v →
      IsOpen v loc block := by
  apply Prog.Yields.bind (findRoot_yields hd [0, 1] buf)
  intro x hx
  cases x with
  | none => exact Prog.Yields.pure fun v hv => absurd hv (Option.some_ne_none v).symm
  | some b =>
    obtain ⟨p, root, hp, hroot, hagree, hown⟩ := hx b rfl
    have hobjc : be32 b 104 = be32 root 104 := hagree.be32 (by decide)
    have hbits : b.nat 20 = root.nat 20 := Agree.nat hagree (by decide)
    rw [openRoot]
    split_ifs with hok
    · apply Prog.Yields.bind (hd (be32 b 104) stack)
      rintro ⟨ret, oc⟩ hread
      apply Prog.Yields.pure
      dsimp only at hread ⊢
      intro v hv
      split_ifs at hv with hoc
      obtain rfl := Option.some.inj hv
      obtain ⟨-, c, hc, hagree'⟩ | ⟨hret, -⟩ := hread
      · have hp : p = 0 ∨ p = 1 := by
          obtain rfl | hp := List.mem_cons.1 hp
          · exact .inl rfl
          · exact .inr (List.mem_singleton.1 hp)
        rw [hobjc] at hc
        refine ⟨rfl, p, root, c, hp, hroot, hown, hc, ?_, hagree'.be32 (by decide)⟩
        rw [← hbits]
        rfl
      · exact absurd hoc.1 hret
    · exact Prog.Yields.pure fun v hv => absurd hv (Option.some_ne_none v).symm

/-- A string with its end at `p`. -/
structure Cstring (b : Buf) (p : Nat) (l : List UInt8) : Prop where
  bytes : bytes b p (l.length + 1) = l ++ [0]
  nonzero : ∀ c ∈ l, c ≠ 0

/-- The size of a record: the header and two strings, padded to an even size. -/
def recordSize (name comment : List UInt8) : Nat :=
  27 + name.length + comment.length + (27 + name.length + comment.length) % 2

/-- The records of a container from `off` on, with zeros behind the last one. -/
inductive Records (b : Buf) : Nat → List Object → Prop where
  | zeros (h : ∀ i, off ≤ i → i < bsize → b i = 0) : Records b off []
  | record (hnode : be32 b (off + 4) ≠ 0) (hname : Cstring b (off + 25) name)
      (hcomment : Cstring b (off + 26 + name.length) comment)
      (hend : off + recordSize name comment ≤ bsize)
      (rest : Records b (off + recordSize name comment) os) :
      Records b off (⟨be32 b (off + 12), be32 b (off + 16), b.nat (off + 24), name⟩ :: os)

/-- The containers of a directory from block `n` on, with their objects. As the list is finite, the
chain has no cycle. -/
inductive ContainerChain (block : Nat → Buf) : Nat → List (List Object) → Prop where
  | nil : ContainerChain block 0 []
  | cons (hn : n ≠ 0) (hid : be32 (block n) 0 = blockidObjc) (hown : be32 (block n) 8 = n)
      (hobjects : Records (block n) 24 os) (rest : ContainerChain block (be32 (block n) 16) oss) :
      ContainerChain block n (os :: oss)

/-- A directory with the objects `os`, whose first container is block `n`. -/
def Directory (block : Nat → Buf) (n : Nat) (os : List Object) : Prop :=
  ∃ oss, ContainerChain block n oss ∧ oss.length ≤ 4096 ∧ os = oss.flatten

/-- The first container of a directory. -/
def firstOc : Nat ⊕ Object → Nat
  | .inl oc => oc
  | .inr o => o.size

/-- A name under the case folding of the volume. -/
def Volume.folded (v : Volume) (name : List UInt8) : List UInt8 :=
  if v.caseSens then name else name.map foldCh

/-- The tree of a volume. `listing n` are the objects of the directory at block `n`. The nodes that
may be followed by a separator are the root, and directories that are neither links nor empty. -/
def Volume.tree (v : Volume) (listing : Nat → List Object) :
    NameTree (Nat ⊕ Object) (List UInt8) where
  IsDir n := ∀ o, n = .inr o → o.isDir ∧ ¬ o.isLink ∧ o.size ≠ 0
  Entry n c m := ∃ o, m = .inr o ∧
    (listing (firstOc n)).find? (fun o => v.folded o.name == v.folded c) = some o

def WellFormed (v : Volume) (block : Nat → Buf) (listing : Nat → List Object) : Prop :=
  ∀ n, (v.tree listing).Reaches (.inl v.rootDirFirstOc) n → (v.tree listing).IsDir n →
    Directory block (firstOc n) (listing (firstOc n))

theorem Cstring.skipCstring (h : Cstring b p l) (hn : l.length < n) :
    skipCstring b p n = p + l.length + 1 :=
  skipCstring_eq h.bytes h.nonzero hn

theorem le_recordSize (name comment : List UInt8) :
    27 + name.length + comment.length ≤ recordSize name comment := Nat.le_add_right _ _

section

variable {b : Buf} {name comment : List UInt8}

theorem objectRecordSize_record (hname : Cstring b (off + 25) name)
    (hcomment : Cstring b (off + 26 + name.length) comment)
    (hend : off + recordSize name comment ≤ bsize) :
    objectRecordSize b off (bsize - off) = recordSize name comment := by
  have hle := le_recordSize name comment
  have hskip := hname.skipCstring (n := bsize - off - 25) (by omega)
  have hpos : off + 25 + name.length + 1 = off + 26 + name.length := by omega
  rw [hpos] at hskip
  have hskip' := hcomment.skipCstring
    (n := off + 25 + (bsize - off - 25) - (off + 26 + name.length)) (by omega)
  have hsize : off + 26 + name.length + comment.length + 1 - off =
      27 + name.length + comment.length := by omega
  rw [objectRecordSize, if_neg (by omega), stringsEnd, hskip, hskip', hsize]
  rfl

theorem object_record (hname : Cstring b (off + 25) name)
    (hend : off + recordSize name comment ≤ bsize) :
    object b off = ⟨be32 b (off + 12), be32 b (off + 16), b.nat (off + 24), name⟩ := by
  have hle := le_recordSize name comment
  have hlen : cstringLen b (off + 25) (bsize - off - 25) = name.length :=
    cstringLen_eq hname.bytes hname.nonzero (by omega)
  rw [object, hlen, bytes_of_cstring hname.bytes]

/-- No record of a container is skipped or split, also if it ends at the end of the container. -/
theorem Records.objectsFrom (h : Records b off os) (hn : bsize - off ≤ n) :
    objectsFrom b n off = os := by
  induction h generalizing n with
  | @zeros off hzero =>
    cases n with
    | zero => rfl
    | succ n =>
      rw [Sfs.objectsFrom, if_neg]
      rintro ⟨hroom, hnode, -⟩
      apply hnode
      have h0 : b.nat (off + 4) = 0 := congrArg UInt8.toNat (hzero (off + 4) (by omega) (by omega))
      have h1 : b.nat (off + 4 + 1) = 0 :=
        congrArg UInt8.toNat (hzero (off + 4 + 1) (by omega) (by omega))
      have h2 : b.nat (off + 4 + 2) = 0 :=
        congrArg UInt8.toNat (hzero (off + 4 + 2) (by omega) (by omega))
      have h3 : b.nat (off + 4 + 3) = 0 :=
        congrArg UInt8.toNat (hzero (off + 4 + 3) (by omega) (by omega))
      rw [be32, h0, h1, h2, h3]
      rfl
  | @record off name comment os hnode hname hcomment hend rest ih =>
    have hle := le_recordSize name comment
    have hsize := objectRecordSize_record hname hcomment hend
    have hok : ObjectOk b off := by
      refine ⟨by omega, hnode, ?_⟩
      rw [hsize]
      exact hend
    cases n with
    | zero => omega
    | succ n =>
      rw [Sfs.objectsFrom, if_pos hok, object_record hname hend, hsize, ih (by omega)]

theorem Records.objects (h : Records b 24 os) : objects b = os := h.objectsFrom (Nat.sub_le _ _)

end

theorem ContainerChain.walked (h : ContainerChain block n oss) (hlen : oss.length ≤ k)
    (own : Bool) : walked own (containers (fun n => some (block n)) k n) = oss.flatten := by
  induction h generalizing k with
  | nil =>
    have hnil : containers (fun n => some (block n)) k 0 = [] := by
      cases k with
      | zero => rfl
      | succ k => exact if_pos rfl
    rw [hnil, walked_nil]
    rfl
  | @cons n os oss hn hid hown hobjects rest ih =>
    cases k with
    | zero => cases hlen
    | succ k =>
      rw [containers, if_neg hn]
      dsimp only
      rw [if_neg (not_not.2 hid), walked_cons, if_neg fun hne => hne.2 hown, hobjects.objects,
        ih (Nat.le_of_succ_le_succ hlen), List.flatten_cons]

theorem Volume.nameEq_iff (v : Volume) (hc : c.length < 2 ^ 32) (name : List UInt8) :
    sfsNameEq v name c = (v.folded name == v.folded c) := by
  rw [sfsNameEq, Bool.eq_iff_iff, beq_iff_eq, Fs.nameEq_iff hc, Volume.folded, Volume.folded]
  split_ifs
  · rw [List.map_id, List.map_id]
  · rfl

section

variable {v : Volume} {d : ImageDisk} {listing : Nat → List Object} (hd : d.Reads) (stack : Buf)

include hd

theorem Directory.walkDir (hdir : Directory (d.block v.partLoc) n os) (own : Bool)
    (hit : Object → Bool) :
    Prog.Yields (walkDir d.toDisk stack v own hit n) fun e =>
      e.passed = os.takeWhile (fun o => !hit o) ∧
        ((∃ o, os.find? hit = some o ∧ e.found = .ok o) ∨
          os.find? hit = none ∧ e.found = .error .eNoFile) := by
  obtain ⟨oss, hchain, hlen, rfl⟩ := hdir
  have hwalk := dirLoop_yields (hd.hasBlocks v.partLoc) stack own hit (g := 0) (k := 4096) (n := n)
    rfl []
  have hwalked := hchain.walked hlen own
  rw [show d.blocks v.partLoc = fun n => some (d.block v.partLoc n) from rfl, hwalked] at hwalk
  apply hwalk.mono
  rintro e ⟨hpassed, hfound⟩
  refine ⟨hpassed, ?_⟩
  obtain hsome | ⟨hnone, ret, herror, hret⟩ := hfound
  · exact .inl hsome
  · right
    rw [hret fun n => Option.some_ne_none _] at herror
    exact ⟨hnone, herror⟩

theorem WellFormed.searches (hwf : WellFormed v (d.block v.partLoc) listing) {len : Nat}
    (hlen : len < 2 ^ 32) :
    (walker d.toDisk stack v).Searches (v.tree listing) v.rootDirFirstOc len (· = .eNoFile) := by
  have hdirOf (n : Nat ⊕ Object) (dir : Nat) (h : (walker d.toDisk stack v).dirOf n = some dir) :
      dir = firstOc n ∧ (v.tree listing).IsDir n := by
    cases n with
    | inl oc =>
      obtain rfl := Option.some.inj h
      exact ⟨rfl, fun o ho => by cases ho⟩
    | inr o =>
      have henter : (if o.isDir ∧ ¬ o.isLink ∧ o.size ≠ 0 then some o.size else none) = some dir :=
        h
      split_ifs at henter with ho
      obtain rfl := Option.some.inj henter
      refine ⟨rfl, fun o' ho' => ?_⟩
      obtain rfl := Sum.inr.inj ho'
      exact ho
  constructor
  · intro n
    constructor
    · intro hdir
      cases n with
      | inl oc => exact ⟨oc, rfl⟩
      | inr o => exact ⟨o.size, if_pos (hdir o rfl)⟩
    · rintro ⟨dir, h⟩
      exact (hdirOf n dir h).2
  · rfl
  · intro n dir hreach h c hc
    obtain ⟨rfl, hdir⟩ := hdirOf n dir h
    have hhit : (fun o : Object => sfsNameEq v o.name c) =
        fun o => v.folded o.name == v.folded c :=
      funext fun o => v.nameEq_iff (Nat.lt_of_le_of_lt hc hlen) o.name
    apply Prog.Yields.bind ((hwf n hreach hdir).walkDir hd stack true _)
    rintro e ⟨-, hfound⟩
    apply Prog.Yields.pure
    rw [hhit] at hfound
    obtain ⟨o, ho, hok⟩ | ⟨hnone, herror⟩ := hfound
    · exact .inl ⟨o, hok, o, rfl, ho⟩
    · refine .inr ⟨.eNoFile, herror, rfl, ?_⟩
      rintro m ⟨o, -, ho⟩
      exact absurd (hnone.symm.trans ho) (Option.some_ne_none o).symm

end

theorem Volume.tree_functional (v : Volume) (listing : Nat → List Object) (n m k : Nat ⊕ Object)
    (h : (v.tree listing).Entry n c m) (h' : (v.tree listing).Entry n c k) : m = k := by
  obtain ⟨o, rfl, ho⟩ := h
  obtain ⟨o', rfl, ho'⟩ := h'
  rw [Option.some.inj (ho.symm.trans ho')]

/-- The result for an object: the first container of a directory, the first extent and the size of
a file. -/
structure Object.Shown (o : Object) (t : Target) : Prop where
  isDir : t.isDir = o.isDir
  isLink : t.isLink = o.isLink
  data : t.data = if o.isDir then o.size else o.data
  size : o.isDir = false → t.size = o.size

/-- The result for a node of the tree. -/
def Result : Nat ⊕ Object → Target → Prop
  | .inl oc, t => t = ⟨oc, 0, 128⟩
  | .inr o, t => o.Shown t

theorem result_of_shows {d : Disk} (h : (walker d stack v).Shows slash n t) : Result n t := by
  cases h with
  | root => rfl
  | @last e _ =>
    show e.Shown (if e.isDir then ⟨e.size, 0, e.bits⟩ else ⟨e.data, e.size, e.bits⟩)
    by_cases hdir : e.isDir = true
    · rw [if_pos hdir]
      exact ⟨rfl, rfl, (if_pos hdir).symm, fun h => Bool.noConfusion (hdir.symm.trans h)⟩
    · rw [if_neg hdir]
      exact ⟨rfl, rfl, (if_neg hdir).symm, fun _ => rfl⟩
  | @inside e dir _ henter =>
    have henter : (if e.isDir ∧ ¬ e.isLink ∧ e.size ≠ 0 then some e.size else none) = some dir :=
      henter
    split_ifs at henter with he
    obtain rfl := Option.some.inj henter
    obtain ⟨hdir, hlink, -⟩ := he
    rw [Bool.not_eq_true] at hlink
    have hbit : Target.isDir ⟨e.size, 0, 128⟩ = true := (by decide : (128).testBit 7 = true)
    have hnoBit : Target.isLink ⟨e.size, 0, 128⟩ = false := (by decide : (128).testBit 6 = false)
    exact ⟨hbit.trans hdir.symm, hnoBit.trans hlink.symm, (if_pos hdir).symm,
      fun h => Bool.noConfusion (hdir.symm.trans h)⟩

/-- A path is walked to the first object with the name of each component, and a search passes every
object of a directory. -/
theorem sfsWalkPath_resolves (d : ImageDisk) (stack buf : Buf) (loc dostype : Nat)
    (listing : Nat → List Object) (path : List Char) (hd : d.Reads)
    (hlen : path.length < 2 ^ 32) :
    Prog.Yields (sfsOpenVolume d.toDisk stack loc dostype buf) fun x => ∀ v, x = some v →
      WellFormed v (d.block loc) listing →
      IsOpen v loc (d.blocks loc) ∧
      (Prog.Yields (sfsWalkPath d.toDisk stack v path) fun r =>
        (r = .error .eNoFile ↔ (v.tree listing).Leads (EndsSep isSep path)
          (.inl v.rootDirFirstOc) (components path) none) ∧
        (∀ n, (v.tree listing).Leads (EndsSep isSep path) (.inl v.rootDirFirstOc)
          (components path) (some n) → ∃ t, r = .ok t ∧ Result n t) ∧
        ∀ t, r = .ok t → ∃ n, (v.tree listing).Leads (EndsSep isSep path)
          (.inl v.rootDirFirstOc) (components path) (some n)) ∧
      ∀ n, (v.tree listing).Reaches (.inl v.rootDirFirstOc) n → (v.tree listing).IsDir n →
        Prog.Yields (walkDir d.toDisk stack v true (fun _ => false) (firstOc n))
          (·.passed = listing (firstOc n)) := by
  apply (sfsOpenVolume_isOpen (hd.hasBlocks loc) stack dostype buf).mono
  intro x hx v hv hwf
  have hopen := hx v hv
  obtain rfl := hopen.partLoc
  have hone : ∀ n, (v.tree listing).Reaches (.inl v.rootDirFirstOc) n → (v.tree listing).IsDir n →
      ∀ c m k, (v.tree listing).Entry n c m → (v.tree listing).Entry n c k → m = k :=
    fun n _ _ c m k => v.tree_functional listing n m k
  refine ⟨hopen, ?_, fun n hreach hdir => ?_⟩
  · apply ((walker d.toDisk stack v).walkPath_resolved (hwf.searches hd stack hlen)).mono
    rintro r (⟨_, rfl, rfl, hnone⟩ | ⟨n, t, rfl, hsome, hshows⟩)
    · refine ⟨⟨fun _ => hnone, fun _ => rfl⟩, fun n h => ?_, fun t ht => ?_⟩
      · cases h.unique hnone .root hone
      · cases ht
    · refine ⟨⟨fun h => ?_, fun h => ?_⟩, fun m h => ?_, fun _ _ => ⟨n, hsome⟩⟩
      · cases h
      · cases h.unique hsome .root hone
      · obtain rfl := Option.some.inj (h.unique hsome .root hone)
        exact ⟨t, rfl, result_of_shows hshows⟩
  · apply ((hwf n hreach hdir).walkDir hd stack true fun _ => false).mono
    rintro e ⟨hpassed, -⟩
    rw [hpassed]
    exact List.takeWhile_eq_self_iff.2 fun _ _ => rfl

/-- A volume with its root in block 0. The root directory is block 3, with a file `A` and a
directory `DIR`. The directory has the blocks 5 and 6, with the files `X` and `DEEP`. -/
def shelfDisk : ImageDisk :=
  Disk.ofImage (written [be 4 4 4294901146, be 12 2 1, be 48 4 100, be 52 4 512, be 104 4 2,
    be 1024 4 blockidObjc, be 1052 4 1, be 1064 4 3, be 1536 4 blockidObjc, be 1544 4 3,
    be 1564 4 5, be 1572 4 7, be 1576 4 9, be 1585 1 0x41, be 1592 4 6, be 1604 4 5, be 1612 1 128,
    slice 1613 [0x44, 0x49, 0x52], be 2560 4 blockidObjc, be 2568 4 5, be 2576 4 6, be 2588 4 8,
    be 2596 4 11, be 2600 4 12, be 2609 1 0x58, be 3072 4 blockidObjc, be 3080 4 6, be 3100 4 9,
    be 3108 4 40, be 3112 4 77, slice 3121 [0x44, 0x45, 0x45, 0x50]])

def shelfFile : Object := ⟨7, 9, 0, [0x41]⟩

def shelfDir : Object := ⟨0, 5, 128, [0x44, 0x49, 0x52]⟩

def shelfCard : Object := ⟨11, 12, 0, [0x58]⟩

def shelfBook : Object := ⟨40, 77, 0, [0x44, 0x45, 0x45, 0x50]⟩

def shelfListing (n : Nat) : List Object :=
  if n = 3 then [shelfFile, shelfDir] else if n = 5 then [shelfCard, shelfBook] else []

instance (b : Buf) (p : Nat) (l : List UInt8) : Decidable (Cstring b p l) :=
  decidable_of_iff ((Fs.bytes b p (l.length + 1) == l ++ [0] && l.all (· != 0)) = true) (by
    rw [Bool.and_eq_true, beq_iff_eq, List.all_eq_true]
    simp only [bne_iff_ne]
    exact ⟨fun h => ⟨h.1, h.2⟩, fun h => ⟨h.bytes, h.nonzero⟩⟩)

theorem Records.object {o : Object} (hnode : be32 b (off + 4) ≠ 0)
    (hname : Cstring b (off + 25) o.name) (hcomment : Cstring b (off + 26 + o.name.length) [])
    (hend : off + recordSize o.name [] ≤ bsize)
    (hfields : ⟨be32 b (off + 12), be32 b (off + 16), b.nat (off + 24), o.name⟩ = o)
    (rest : Records b (off + recordSize o.name []) os) : Records b off (o :: os) := by
  have h := Records.record hnode hname hcomment hend rest
  rwa [hfields] at h

theorem shelf_root : Directory (shelfDisk.block 0) 3 [shelfFile, shelfDir] := by
  have hnext : be32 (shelfDisk.block 0 3) 16 = 0 := by decide +kernel
  have hzero : ∀ i < bsize, 82 ≤ i → shelfDisk.block 0 3 i = 0 := by decide +kernel
  have hdir : Records (shelfDisk.block 0 3) 52 [shelfDir] :=
    .object (by decide +kernel) (by decide +kernel) (by decide +kernel) (by decide)
      (by decide +kernel) (.zeros fun i hle hlt => hzero i hlt hle)
  have hfile : Records (shelfDisk.block 0 3) 24 [shelfFile, shelfDir] :=
    .object (by decide +kernel) (by decide +kernel) (by decide +kernel) (by decide)
      (by decide +kernel) hdir
  refine ⟨[[shelfFile, shelfDir]], .cons (by decide) (by decide +kernel) (by decide +kernel) hfile
    ?_, by decide, rfl⟩
  rw [hnext]
  exact .nil

theorem shelf_directory : Directory (shelfDisk.block 0) 5 [shelfCard, shelfBook] := by
  have hnext : be32 (shelfDisk.block 0 5) 16 = 6 := by decide +kernel
  have hlast : be32 (shelfDisk.block 0 6) 16 = 0 := by decide +kernel
  have hzero : ∀ i < bsize, 52 ≤ i → shelfDisk.block 0 5 i = 0 := by decide +kernel
  have hzero' : ∀ i < bsize, 56 ≤ i → shelfDisk.block 0 6 i = 0 := by decide +kernel
  have hcard : Records (shelfDisk.block 0 5) 24 [shelfCard] :=
    .object (by decide +kernel) (by decide +kernel) (by decide +kernel) (by decide)
      (by decide +kernel) (.zeros fun i hle hlt => hzero i hlt hle)
  have hbook : Records (shelfDisk.block 0 6) 24 [shelfBook] :=
    .object (by decide +kernel) (by decide +kernel) (by decide +kernel) (by decide)
      (by decide +kernel) (.zeros fun i hle hlt => hzero' i hlt hle)
  have hrest : ContainerChain (shelfDisk.block 0) 6 [[shelfBook]] := by
    refine .cons (by decide) (by decide +kernel) (by decide +kernel) hbook ?_
    rw [hlast]
    exact .nil
  refine ⟨[[shelfCard], [shelfBook]], .cons (by decide) (by decide +kernel) (by decide +kernel)
    hcard ?_, by decide, rfl⟩
  rw [hnext]
  exact hrest

theorem shelfListing_isDir (n : Nat) (o : Object) (ho : o ∈ shelfListing n)
    (hdir : o.isDir = true) : o = shelfDir := by
  have hroot : ∀ o ∈ [shelfFile, shelfDir], o.isDir = true → o = shelfDir := by decide
  have hsub : ∀ o ∈ [shelfCard, shelfBook], o.isDir = true → o = shelfDir := by decide
  rw [shelfListing] at ho
  split_ifs at ho
  · exact hroot o ho hdir
  · exact hsub o ho hdir
  · cases ho

theorem shelf_wellFormed {v : Volume} (hv : IsOpen v 0 (shelfDisk.blocks 0)) :
    v.rootDirFirstOc = 3 ∧ v.caseSens = false ∧
      WellFormed v (shelfDisk.block 0) shelfListing := by
  obtain ⟨p, root, oc, hp, hroot, hown, hoc, hcase, hfirst⟩ := hv.root
  obtain rfl | rfl := hp
  · obtain rfl := Option.some.inj hroot
    obtain rfl := Option.some.inj hoc
    have hfirst' : be32 (shelfDisk.block 0 (be32 (shelfDisk.block 0 0) 104)) (24 + 16) = 3 := by
      decide +kernel
    have hcase' : ((shelfDisk.block 0 0).nat 20).testBit 7 = false := by decide +kernel
    refine ⟨hfirst.trans hfirst', hcase.trans hcase', fun n hreach hdir => ?_⟩
    cases hreach with
    | root =>
      show Directory _ v.rootDirFirstOc (shelfListing v.rootDirFirstOc)
      rw [hfirst.trans hfirst']
      exact shelf_root
    | entry _ _ hentry =>
      obtain ⟨o, rfl, ho⟩ := hentry
      obtain rfl := shelfListing_isDir _ o (List.mem_of_find?_eq_some ho) (hdir o rfl).1
      exact shelf_directory
  · obtain rfl := Option.some.inj hroot
    have hzero : be32 (shelfDisk.block 0 1) 8 = 0 := by decide +kernel
    exact absurd (hzero.symm.trans hown) (by decide)

theorem shelf_leads {v : Volume} (hfirst : v.rootDirFirstOc = 3) (hcase : v.caseSens = false)
    (slash : Prop) (hslash : ¬ slash) :
    (v.tree shelfListing).Leads slash (.inl v.rootDirFirstOc)
      [[0x64, 0x69, 0x72], [0x44, 0x65, 0x65, 0x70]] (some (.inr shelfBook)) := by
  have hfold (l : List UInt8) : v.folded l = l.map foldCh := by
    rw [Volume.folded, hcase, if_neg Bool.false_ne_true]
  have hdir : (v.tree shelfListing).IsDir (.inr shelfDir) := by
    intro o ho
    obtain rfl := Sum.inr.inj ho
    decide
  refine .enter (m := .inr shelfDir) (fun o ho => by cases ho) ⟨shelfDir, rfl, ?_⟩
    (.enter (m := .inr shelfBook) hdir ⟨shelfBook, rfl, ?_⟩ (.here fun h => absurd h hslash))
  · show (shelfListing v.rootDirFirstOc).find? _ = _
    simp only [hfirst, hfold]
    decide
  · simp only [hfold]
    decide

theorem sfsWalkPath_resolves_shelf :
    ∃ v w, Prog.Halts (sfsOpenVolume shelfDisk.toDisk (fun _ => 0) 0 dostypeMagic24 fun _ => 0)
        Rdb.boot (some v) w ∧
      Prog.Yields (sfsWalkPath shelfDisk.toDisk (fun _ => 0) v "//dir/Deep".toList) fun r =>
        ∃ t, r = .ok t ∧ t.data = 40 ∧ t.size = 77 := by
  have hd : shelfDisk.Reads := ofImage_reads _
  have hopens : ((sfsOpenVolume shelfDisk.toDisk (fun _ => 0) 0 dostypeMagic24 fun _ => 0).run 0
      Rdb.boot).map (fun y => y.1.isSome) = some true := by decide +kernel
  have hboth := (sfsOpenVolume_isOpen (hd.hasBlocks 0) (fun _ => 0) dostypeMagic24 fun _ => 0).and
    (sfsWalkPath_resolves shelfDisk (fun _ => 0) (fun _ => 0) 0 dostypeMagic24 shelfListing
      "//dir/Deep".toList hd (by decide))
  obtain ⟨x, w, hrun, hopen, hwalk⟩ := hboth Rdb.boot
  cases hrun0 : (sfsOpenVolume shelfDisk.toDisk (fun _ => 0) 0 dostypeMagic24 fun _ => 0).run 0
      Rdb.boot with
  | none =>
    rw [hrun0] at hopens
    cases hopens
  | some y =>
    rw [hrun0] at hopens
    obtain ⟨rfl, -⟩ := hrun.unique ⟨0, hrun0⟩
    obtain ⟨v, hv⟩ := Option.isSome_iff_exists.1 (Option.some.inj hopens)
    obtain ⟨hfirst, hcase, hwf⟩ := shelf_wellFormed (hopen v hv)
    obtain ⟨-, hresolves, -⟩ := hwalk v hv hwf
    have hcomponents : components "//dir/Deep".toList =
        [[0x64, 0x69, 0x72], [0x44, 0x65, 0x65, 0x70]] := by decide
    have hslash : ¬ EndsSep isSep "//dir/Deep".toList := by
      rintro ⟨c, hc, hsep⟩
      obtain rfl := Option.some.inj hc
      cases hsep
    rw [hcomponents] at hresolves
    refine ⟨v, w, hv ▸ hrun, hresolves.mono fun r hr => ?_⟩
    obtain ⟨t, rfl, hshown⟩ := hr.2.1 (.inr shelfBook) (shelf_leads hfirst hcase _ hslash)
    exact ⟨t, rfl, hshown.data, hshown.size rfl⟩

end Sfs

end Pegasos2.Fs
