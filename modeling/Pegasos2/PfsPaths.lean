import Pegasos2.PathWalks
import Pegasos2.PfsDirectories

namespace Pegasos2.Fs
open Program
open PartitionPkg (Agree)
open Tokens (EndsSep)
open Ffs (components)
set_option autoImplicit true

namespace Pfs

/-- The entries of a directory block from `off` on. The last one is followed by a zero, or fills the
block. -/
inductive Entries (b : Buf) : Nat → List Direntry → Prop where
  | full : Entries b bsize []
  | zero (hoff : off < bsize) (h : b.nat off = 0) : Entries b off []
  | entry (hname : b.nat (off + 17) ≠ 0) (hfits : 18 + b.nat (off + 17) ≤ b.nat off)
      (hend : off + b.nat off ≤ bsize) (rest : Entries b (off + b.nat off) es) :
      Entries b off (⟨b.nat (off + 1), be32 b (off + 2), be32 b (off + 6),
        bytes b (off + 18) (b.nat (off + 17))⟩ :: es)

/-- A directory block with the entries `es`. -/
structure Dirblock (b : Buf) (es : List Direntry) : Prop where
  id : be16 b 0 = idDb
  entries : Entries b 20 es

/-- A directory with the entries `es`, whose first anode is `anr`. -/
def Directory (block : Nat → Buf) (anr : Nat) (es : List Direntry) : Prop :=
  ∃ chain ess, FileChain (AnodeAt (fun n => some (block n)) (block 2)) anr chain 0 ∧
    chain.length ≤ 4096 ∧ (∀ x ∈ chain, x.first ≠ 0) ∧
    List.Forall₂ (fun n es => Dirblock (block n) es) (blockList chain) ess ∧ es = ess.flatten

/-- The anode of a directory. -/
def dirAnode : Nat ⊕ Direntry → Nat
  | .inl a => a
  | .inr e => e.anode

/-- The tree of a volume. `listing a` are the entries of the directory with the anode `a`. -/
def tree (listing : Nat → List Direntry) : NameTree (Nat ⊕ Direntry) (List UInt8) where
  IsDir n := ∀ e, n = .inr e → e.type = stUserdir
  Entry n c m := ∃ e, m = .inr e ∧
    (listing (dirAnode n)).find? (fun e => e.name.map foldCh == c.map foldCh) = some e

def WellFormed (block : Nat → Buf) (listing : Nat → List Direntry) : Prop :=
  ∀ n, (tree listing).Reaches (.inl anodeRootdir) n → (tree listing).IsDir n →
    Directory block (dirAnode n) (listing (dirAnode n))

/-- No entry of a block is skipped or split, also if it ends at the end of the block. -/
theorem Entries.entriesFrom (h : Entries b off es) (hn : bsize - off ≤ n) :
    (∀ o ∈ entriesFrom b n off, b.nat (o + 17) ≠ 0 ∧ NameOk b o) ∧
      (entriesFrom b n off).map (direntry b) = es := by
  induction h generalizing n with
  | full =>
    have hnot : ¬ EntryOk b bsize := fun hok => absurd hok.1 (by omega)
    cases n with
    | zero => exact ⟨fun o ho => absurd ho List.not_mem_nil, rfl⟩
    | succ n =>
      rw [Pfs.entriesFrom, if_neg hnot]
      exact ⟨fun o ho => absurd ho List.not_mem_nil, rfl⟩
  | zero hoff hzero =>
    cases n with
    | zero => exact ⟨fun o ho => absurd ho List.not_mem_nil, rfl⟩
    | succ n =>
      rw [Pfs.entriesFrom, if_neg fun hok => hok.2.1 hzero]
      exact ⟨fun o ho => absurd ho List.not_mem_nil, rfl⟩
  | @entry off es hname hfits hend rest ih =>
    have hok : EntryOk b off := ⟨by omega, by omega, by omega, hend⟩
    have hnameOk : NameOk b off := by
      rw [NameOk]
      omega
    cases n with
    | zero => omega
    | succ n =>
      obtain ⟨hall, hmap⟩ := ih (n := n) (by omega)
      rw [Pfs.entriesFrom, if_pos hok, List.map_cons, hmap]
      refine ⟨fun o ho => ?_, rfl⟩
      cases ho with
      | head => exact ⟨hname, hnameOk⟩
      | tail _ ho => exact hall o ho

theorem Dirblock.searched (h : Dirblock b es) : searched b = es := by
  obtain ⟨hall, hmap⟩ := h.entries.entriesFrom (n := bsize) (Nat.sub_le _ _)
  rw [Pfs.searched, Pfs.entries,
    List.filter_eq_self.2 fun off hoff => decide_eq_true (hall off hoff)]
  exact hmap

theorem Dirblock.listed (h : Dirblock b es) : listed b = es := by
  obtain ⟨hall, hmap⟩ := h.entries.entriesFrom (n := bsize) (Nat.sub_le _ _)
  rw [Pfs.listed, Pfs.entries,
    List.takeWhile_eq_self_iff.2 fun off hoff => decide_eq_true (hall off hoff).2]
  exact hmap

theorem Dirblock.isDb (h : Dirblock b es) : isDb b = true := beq_iff_eq.2 h.id

section

variable {block : Nat → Buf}

theorem readable_all (block : Nat → Buf) (ns : List Nat) :
    readable (fun n => some (block n)) ns = (ns.map block, true) := by
  induction ns with
  | nil => rfl
  | cons n ns ih =>
    rw [readable, ih]
    rfl

theorem dirBlocks_chain (h : FileChain (AnodeAt (fun n => some (block n)) root) anr chain last)
    (hlast : last = 0) (hlen : chain.length ≤ k) (hfirst : ∀ x ∈ chain, x.first ≠ 0) :
    dirBlocks (fun n => some (block n)) root k anr = (blockList chain).map block := by
  induction h generalizing k with
  | nil =>
    cases k with
    | zero => rfl
    | succ k => exact if_pos hlast
  | @cons key x xs last hkey hat hblocks rest ih =>
    cases k with
    | zero => cases hlen
    | succ k =>
      have hx : ¬ (x.first = 0 ∨ x.blocks = 0) := by
        rintro (h | h)
        · exact hfirst x List.mem_cons_self h
        · exact hblocks h
      rw [dirBlocks, if_neg hkey, anode?_eq_some.2 hat]
      dsimp only
      rw [if_neg hx, readable_all, if_pos rfl, ih hlast (Nat.le_of_succ_le_succ hlen)
        fun y hy => hfirst y (List.mem_cons_of_mem x hy), blockList, blockList,
        List.flatMap_cons, List.map_append]

theorem dirblocks_flatten
    (h : List.Forall₂ (fun n es => Dirblock (block n) es) ns ess) :
    searchedIn (ns.map block) = ess.flatten ∧ listedIn (ns.map block) = ess.flatten := by
  induction h with
  | nil => exact ⟨rfl, rfl⟩
  | cons hb rest ih =>
    rw [List.map_cons, searchedIn_cons, listedIn_cons, if_pos hb.isDb, if_pos hb.isDb,
      hb.searched, hb.listed, ih.1, ih.2]
    exact ⟨rfl, rfl⟩

theorem Directory.blocks (h : Directory block anr es) :
    searchedIn (dirBlocks (fun n => some (block n)) (block 2) 4096 anr) = es ∧
      listedIn (dirBlocks (fun n => some (block n)) (block 2) 4096 anr) = es := by
  obtain ⟨chain, ess, hchain, hlen, hfirst, hblocks, rfl⟩ := h
  rw [dirBlocks_chain hchain rfl hlen hfirst]
  exact dirblocks_flatten hblocks

end

section

variable {v : Volume} {d : ImageDisk} {loc : Nat} {listing : Nat → List Direntry} (hd : d.Reads)
  (stack : Buf) (hv : IsOpen v loc (d.block loc 2))

include hd hv

theorem Directory.lookup (hdir : Directory (d.block loc) anr es) {c : List UInt8}
    (hc : c.length < 2 ^ 32) :
    Prog.Yields (pfsDirLookup d.toDisk stack v anr c) fun r =>
      (∃ e, es.find? (fun e => e.name.map foldCh == c.map foldCh) = some e ∧ r = .ok e) ∨
        es.find? (fun e => e.name.map foldCh == c.map foldCh) = none ∧ ∃ ret, r = .error ret := by
  have hhit : (fun e : Direntry => nameEq foldCh e.name c) =
      fun e => e.name.map foldCh == c.map foldCh := by
    funext e
    rw [Bool.eq_iff_iff, beq_iff_eq, nameEq_iff hc]
  have hlookup := pfsDirLookup_yields (hd.hasBlocks loc) stack hv anr c
    (Nat.zero_add 4096)
  rw [show d.blocks loc = fun n => some (d.block loc n) from rfl, hdir.blocks.1] at hlookup
  apply hlookup.mono
  intro r hr
  rw [Found, hhit] at hr
  exact hr

theorem Directory.list (hdir : Directory (d.block loc) anr es) :
    Prog.Yields (pfsListDir d.toDisk stack v anr) (· = es) := by
  have hlist := pfsListDir_yields (hd.hasBlocks loc) stack hv anr (Nat.zero_add 4096) []
  rw [show d.blocks loc = fun n => some (d.block loc n) from rfl, hdir.blocks.2] at hlist
  exact hlist

theorem WellFormed.searches (hwf : WellFormed (d.block loc) listing) {len : Nat}
    (hlen : len < 2 ^ 32) :
    (walker d.toDisk stack v).Searches (tree listing) anodeRootdir len fun _ => True := by
  have hdirOf (n : Nat ⊕ Direntry) (dir : Nat) (h : (walker d.toDisk stack v).dirOf n = some dir) :
      dir = dirAnode n ∧ (tree listing).IsDir n := by
    cases n with
    | inl a =>
      obtain rfl := Option.some.inj h
      exact ⟨rfl, fun e he => absurd he Sum.inl_ne_inr⟩
    | inr e =>
      have henter : (if e.type = stUserdir then some e.anode else none) = some dir := h
      split_ifs at henter with he
      obtain rfl := Option.some.inj henter
      refine ⟨rfl, fun e' he' => ?_⟩
      obtain rfl := Sum.inr.inj he'
      exact he
  constructor
  · intro n
    constructor
    · intro hdir
      cases n with
      | inl a => exact ⟨a, rfl⟩
      | inr e => exact ⟨e.anode, if_pos (hdir e rfl)⟩
    · rintro ⟨dir, h⟩
      exact (hdirOf n dir h).2
  · trivial
  · intro n dir hreach h c hc
    obtain ⟨rfl, hdir⟩ := hdirOf n dir h
    have hlookup := (hwf n hreach hdir).lookup hd stack hv (Nat.lt_of_le_of_lt hc hlen)
    apply hlookup.mono
    rintro r (⟨e, he, rfl⟩ | ⟨hnone, ret, rfl⟩)
    · exact .inl ⟨e, rfl, e, rfl, he⟩
    · refine .inr ⟨ret, rfl, trivial, ?_⟩
      rintro m ⟨e, -, he⟩
      exact absurd (hnone.symm.trans he) (Option.some_ne_none e).symm

end

theorem tree_functional (listing : Nat → List Direntry) (n m k : Nat ⊕ Direntry)
    (h : (tree listing).Entry n c m) (h' : (tree listing).Entry n c k) : m = k := by
  obtain ⟨e, rfl, he⟩ := h
  obtain ⟨e', rfl, he'⟩ := h'
  rw [Option.some.inj (he.symm.trans he')]

/-- The result for a node of the tree. Behind a separator the size is not that of the entry. -/
inductive Result (slash : Prop) : Nat ⊕ Direntry → Target → Prop where
  | root : Result slash (.inl a) ⟨stUserdir, a, 0⟩
  | entry (h : ¬ slash) : Result slash (.inr e) ⟨e.type, e.anode, e.size⟩
  | inside (h : slash) : Result slash (.inr e) ⟨e.type, e.anode, 0⟩

theorem result_of_shows {d : Disk} (h : (walker d stack v).Shows slash n t) :
    Result slash n t := by
  cases h with
  | root => exact .root
  | last h => exact .entry h
  | @inside e dir h henter =>
    have henter : (if e.type = stUserdir then some e.anode else none) = some dir := henter
    split_ifs at henter with he
    obtain rfl := Option.some.inj henter
    have hinside : Result slash (.inr e) ⟨e.type, e.anode, 0⟩ := .inside h
    rwa [he] at hinside

theorem Result.isDir (h : Result slash n t) (hdir : t.type = stUserdir)
    (listing : Nat → List Direntry) : (tree listing).IsDir n ∧ t.anode = dirAnode n := by
  cases h with
  | root => exact ⟨fun e he => absurd he Sum.inl_ne_inr, rfl⟩
  | entry _ =>
    refine ⟨fun e he => ?_, rfl⟩
    obtain rfl := Sum.inr.inj he
    exact hdir
  | inside _ =>
    refine ⟨fun e he => ?_, rfl⟩
    obtain rfl := Sum.inr.inj he
    exact hdir

/-- A path is walked to the first entry with the name of each component, and the listing of a
directory shows each entry once. -/
theorem pfsWalkPath_resolves (d : ImageDisk) (stack buf : Buf) (loc dostype : Nat)
    (listing : Nat → List Direntry) (path : List Char) (hd : d.Reads)
    (hlen : path.length < 2 ^ 32) (hwf : WellFormed (d.block loc) listing) :
    Prog.Yields (pfsOpenVolume d.toDisk loc dostype buf) fun x => ∀ v, x = some v →
      Prog.Yields (pfsWalkPath d.toDisk stack v path) fun r =>
        ((∃ ret, r = .error ret) ↔ (tree listing).Leads (EndsSep isSep path)
          (.inl anodeRootdir) (components path) none) ∧
        (∀ n, (tree listing).Leads (EndsSep isSep path) (.inl anodeRootdir) (components path)
          (some n) → ∃ t, r = .ok t ∧ Result (EndsSep isSep path) n t) ∧
        ∀ t, r = .ok t → (∃ n, (tree listing).Leads (EndsSep isSep path) (.inl anodeRootdir)
            (components path) (some n)) ∧
          (t.type = stUserdir →
            Prog.Yields (pfsListDir d.toDisk stack v t.anode) (· = listing t.anode)) := by
  apply (pfsOpenVolume_isOpen (hd.hasBlocks loc) dostype buf).mono
  rintro x ⟨hopen, -⟩ v hsome
  obtain ⟨root, hroot, hv⟩ := hopen v hsome
  cases hroot
  have hone : ∀ n, (tree listing).Reaches (.inl anodeRootdir) n → (tree listing).IsDir n →
      ∀ c m k, (tree listing).Entry n c m → (tree listing).Entry n c k → m = k :=
    fun n _ _ c m k => tree_functional listing n m k
  apply ((walker d.toDisk stack v).walkPath_resolved (hwf.searches hd stack hv hlen)).mono
  rintro r (⟨ret, rfl, -, hnone⟩ | ⟨n, t, rfl, hleads, hshows⟩)
  · refine ⟨⟨fun _ => hnone, fun _ => ⟨ret, rfl⟩⟩, fun n h => ?_, fun t ht => ?_⟩
    · cases h.unique hnone .root hone
    · cases ht
  · have hresult := result_of_shows hshows
    refine ⟨⟨?_, fun h => ?_⟩, fun m h => ?_, fun t' ht' => ⟨⟨n, hleads⟩, fun hdir => ?_⟩⟩
    · rintro ⟨ret, hret⟩
      cases hret
    · cases h.unique hleads .root hone
    · obtain rfl := Option.some.inj (h.unique hleads .root hone)
      exact ⟨t, rfl, hresult⟩
    · obtain rfl := Except.ok.inj ht'
      obtain ⟨hisDir, hanode⟩ := hresult.isDir hdir listing
      rw [hanode]
      exact (hwf n (hleads.reaches .root) hisDir).list hd stack hv

/-- A volume whose root directory has a file `f` and a directory `d`, with a size of 7 in its entry.
The directory `e` in it has the files `g` and `h`. -/
def trayDisk : ImageDisk :=
  Disk.ofImage (written [be 1024 4 dtPfs1, be 1076 4 5, be 1080 4 3, be 1088 2 512, be 1108 4 100,
    be 1140 4 3, be 1536 2 idIb, be 1548 4 4, be 2048 2 idAb, be 2124 4 1, be 2128 4 5,
    be 2136 4 1, be 2140 4 6, be 2148 4 1, be 2152 4 7, be 2560 2 idDb, be 2580 1 20,
    be 2581 1 253, be 2582 4 9, be 2586 4 3, be 2597 1 1, be 2598 1 0x66, be 2600 1 20,
    be 2601 1 2, be 2602 4 6, be 2606 4 7, be 2617 1 1, be 2618 1 0x64, be 3072 2 idDb,
    be 3092 1 20, be 3093 1 2, be 3094 4 7, be 3109 1 1, be 3110 1 0x65, be 3584 2 idDb,
    be 3604 1 20, be 3605 1 253, be 3606 4 10, be 3610 4 4, be 3621 1 1, be 3622 1 0x67,
    be 3624 1 20, be 3625 1 253, be 3626 4 11, be 3630 4 5, be 3641 1 1, be 3642 1 0x68])

def trayFile : Direntry := ⟨253, 9, 3, [0x66]⟩

def trayDir : Direntry := ⟨2, 6, 7, [0x64]⟩

def trayInner : Direntry := ⟨2, 7, 0, [0x65]⟩

def trayFiles : List Direntry := [⟨253, 10, 4, [0x67]⟩, ⟨253, 11, 5, [0x68]⟩]

def trayListing (anr : Nat) : List Direntry :=
  if anr = 5 then [trayFile, trayDir] else if anr = 6 then [trayInner]
  else if anr = 7 then trayFiles else []

theorem tray_anode (n first : Nat) (hn : n < 41)
    (hblocks : be32 (trayDisk.block 0 4) (16 + n % 41 * 12) = 1)
    (hfirst : be32 (trayDisk.block 0 4) (16 + n % 41 * 12 + 4) = first)
    (hnext : be32 (trayDisk.block 0 4) (16 + n % 41 * 12 + 8) = 0) :
    AnodeAt (fun n => some (trayDisk.block 0 n)) (trayDisk.block 0 2) n ⟨first, 1, 0⟩ := by
  have hdiv : n / 41 = 0 := Nat.div_eq_of_lt hn
  have hindex : indexPtr (trayDisk.block 0 2) n = 3 := by
    rw [indexPtr, hdiv]
    decide +kernel
  have hanode : anodePtr (trayDisk.block 0 3) n = 4 := by
    rw [anodePtr, hdiv]
    decide +kernel
  have hslot : AnodeAt (fun n => some (trayDisk.block 0 n)) (trayDisk.block 0 2) n
      (anode (trayDisk.block 0 4) (16 + n % 41 * 12)) := by
    apply AnodeAt.slot (by omega)
    · rw [hindex]
      decide
    · rw [hindex]
    · decide +kernel
    · rw [hanode]
      decide
    · rw [hanode]
    · decide +kernel
  rwa [anode, hblocks, hfirst, hnext] at hslot

theorem Entries.direntry {e : Direntry} (hname : b.nat (off + 17) ≠ 0)
    (hfits : 18 + b.nat (off + 17) ≤ b.nat off) (hend : off + b.nat off ≤ bsize)
    (he : Pfs.direntry b off = e) (rest : Entries b (off + b.nat off) es) :
    Entries b off (e :: es) :=
  he ▸ .entry hname hfits hend rest

/-- The directories of the volume have one block each, with the number of their anode. -/
theorem tray_directory (n : Nat) (es : List Direntry) (hn : n < 41)
    (hblocks : be32 (trayDisk.block 0 4) (16 + n % 41 * 12) = 1)
    (hfirst : be32 (trayDisk.block 0 4) (16 + n % 41 * 12 + 4) = n)
    (hnext : be32 (trayDisk.block 0 4) (16 + n % 41 * 12 + 8) = 0) (hzero : n ≠ 0)
    (h : Dirblock (trayDisk.block 0 n) es) : Directory (trayDisk.block 0) n es := by
  have hlist : blockList [⟨n, 1, 0⟩] = [n] := by
    rw [blockList, List.flatMap_singleton, Extent.blockList]
    exact congrArg (fun i => [i]) (Nat.mod_eq_of_lt (Nat.lt_trans hn (by decide)))
  refine ⟨[⟨n, 1, 0⟩], [es], .cons hzero (tray_anode n n hn hblocks hfirst hnext)
    Nat.one_ne_zero .nil, Nat.succ_le_succ (Nat.zero_le _), ?_, ?_, (List.append_nil es).symm⟩
  · intro x hx
    rw [List.mem_singleton.1 hx]
    exact hzero
  · rw [hlist]
    exact .cons h .nil

theorem tray_wellFormed : WellFormed (trayDisk.block 0) trayListing := by
  have hlast : (trayDisk.block 0 5).nat 60 = 0 ∧ (trayDisk.block 0 6).nat 40 = 0 ∧
      (trayDisk.block 0 7).nat 60 = 0 := by decide +kernel
  have hlen : (trayDisk.block 0 5).nat 20 = 20 ∧ (trayDisk.block 0 5).nat 40 = 20 ∧
      (trayDisk.block 0 6).nat 20 = 20 ∧ (trayDisk.block 0 7).nat 20 = 20 ∧
      (trayDisk.block 0 7).nat 40 = 20 := by decide +kernel
  obtain ⟨hl, hl', hl₆, hl₇, hl₇'⟩ := hlen
  have hroot : Entries (trayDisk.block 0 5) 20 [trayFile, trayDir] := by
    refine .direntry (by decide +kernel) (by decide +kernel) (by decide +kernel)
      (by decide +kernel) ?_
    rw [hl]
    refine .direntry (by decide +kernel) (by decide +kernel) (by decide +kernel)
      (by decide +kernel) ?_
    rw [hl']
    exact .zero (by decide) hlast.1
  have hdir : Entries (trayDisk.block 0 6) 20 [trayInner] := by
    refine .direntry (by decide +kernel) (by decide +kernel) (by decide +kernel)
      (by decide +kernel) ?_
    rw [hl₆]
    exact .zero (by decide) hlast.2.1
  have hinner : Entries (trayDisk.block 0 7) 20 trayFiles := by
    refine .direntry (by decide +kernel) (by decide +kernel) (by decide +kernel)
      (by decide +kernel) ?_
    rw [hl₇]
    refine .direntry (by decide +kernel) (by decide +kernel) (by decide +kernel)
      (by decide +kernel) ?_
    rw [hl₇']
    exact .zero (by decide) hlast.2.2
  have hentry (n : Nat) (e : Direntry) (he : e ∈ trayListing n) (htype : e.type = stUserdir) :
      e = trayDir ∨ e = trayInner := by
    have hfiles : ∀ e ∈ trayFiles, e.type ≠ stUserdir := by decide
    have htop : ∀ e ∈ [trayFile, trayDir], e.type = stUserdir → e = trayDir := by decide
    rw [trayListing] at he
    split_ifs at he
    · exact .inl (htop e he htype)
    · exact .inr (List.mem_singleton.1 he)
    · exact absurd htype (hfiles e he)
    · cases he
  intro n hreach hisDir
  cases hreach with
  | root =>
    exact tray_directory 5 _ (by decide) (by decide +kernel) (by decide +kernel)
      (by decide +kernel) (by decide) ⟨by decide +kernel, hroot⟩
  | entry _ _ hfound =>
    obtain ⟨e, rfl, he⟩ := hfound
    obtain rfl | rfl := hentry _ e (List.mem_of_find?_eq_some he) (hisDir e rfl)
    · exact tray_directory 6 _ (by decide) (by decide +kernel) (by decide +kernel)
        (by decide +kernel) (by decide) ⟨by decide +kernel, hdir⟩
    · exact tray_directory 7 _ (by decide) (by decide +kernel) (by decide +kernel)
        (by decide +kernel) (by decide) ⟨by decide +kernel, hinner⟩

theorem tray_opens : ∃ v w, Prog.Halts (pfsOpenVolume trayDisk.toDisk 0 dtPfs1 fun _ => 0) Rdb.boot
    (some v) w ∧ IsOpen v 0 (trayDisk.block 0 2) := by
  have hd : trayDisk.Reads := ofImage_reads _
  obtain ⟨x, w, hrun, hopen, hsome⟩ := pfsOpenVolume_isOpen (hd.hasBlocks 0) dtPfs1 (fun _ => 0)
    Rdb.boot
  have hroot : RootOk dtPfs1 (trayDisk.block 0 2) := by decide +kernel
  obtain ⟨v, rfl⟩ := Option.ne_none_iff_exists'.1 (hsome _ rfl hroot)
  obtain ⟨root, hblock, hv⟩ := hopen v rfl
  cases hblock
  exact ⟨v, w, hrun, hv⟩

theorem tray_leads (slash : Prop) (c : List UInt8) (hc : c.map foldCh = [0x44]) :
    (tree trayListing).Leads slash (.inl anodeRootdir) [c] (some (.inr trayDir)) := by
  refine .enter (fun e he => absurd he Sum.inl_ne_inr) ⟨trayDir, rfl, ?_⟩ (.here fun _ e he => ?_)
  · rw [hc]
    rfl
  · obtain rfl := Sum.inr.inj he
    rfl

theorem tray_leads_inner (slash : Prop) :
    (tree trayListing).Leads slash (.inl anodeRootdir) [[0x44], [0x65]]
      (some (.inr trayInner)) := by
  have hdir (e : Direntry) (he : e.type = stUserdir) : (tree trayListing).IsDir (.inr e) := by
    intro e' he'
    obtain rfl := Sum.inr.inj he'
    exact he
  exact .enter (m := .inr trayDir) (fun e he => absurd he Sum.inl_ne_inr) ⟨trayDir, rfl, rfl⟩
    (.enter (m := .inr trayInner) (hdir trayDir rfl) ⟨trayInner, rfl, rfl⟩
      (.here fun _ => hdir trayInner rfl))

theorem pfsWalkPath_resolves_tray :
    ∃ v w, Prog.Halts (pfsOpenVolume trayDisk.toDisk 0 dtPfs1 fun _ => 0) Rdb.boot (some v) w ∧
      Prog.Yields (pfsWalkPath trayDisk.toDisk (fun _ => 0) v "/D/e".toList) fun r =>
        ∃ t, r = .ok t ∧ t.type = stUserdir ∧ t.anode = 7 ∧ t.size = 0 ∧
          Prog.Yields (pfsListDir trayDisk.toDisk (fun _ => 0) v 7) (· = trayFiles) := by
  obtain ⟨x, w, hrun, hwalk⟩ := pfsWalkPath_resolves trayDisk (fun _ => 0) (fun _ => 0) 0 dtPfs1
    trayListing "/D/e".toList (ofImage_reads _) (by decide) tray_wellFormed Rdb.boot
  obtain ⟨v, w', hopen, -⟩ := tray_opens
  obtain ⟨rfl, rfl⟩ := hrun.unique hopen
  have hslash : ¬ EndsSep isSep "/D/e".toList := by
    rintro ⟨c, hc, hsep⟩
    obtain rfl := Option.some.inj hc
    cases hsep
  have hcomponents : components "/D/e".toList = [[0x44], [0x65]] := by decide
  refine ⟨v, w, hrun, (hwalk v rfl).mono fun r hr => ?_⟩
  obtain ⟨-, hsome, hlist⟩ := hr
  rw [hcomponents] at hsome
  obtain ⟨t, rfl, hresult⟩ := hsome _ (tray_leads_inner _)
  have hlisted := (hlist t rfl).2
  cases hresult with
  | entry _ => exact ⟨_, rfl, rfl, rfl, rfl, hlisted rfl⟩
  | inside h => exact absurd h hslash

/-- Behind a separator the size of the entry is lost. -/
theorem pfsWalkPath_drops_size :
    ∃ v w, Prog.Halts (pfsOpenVolume trayDisk.toDisk 0 dtPfs1 fun _ => 0) Rdb.boot (some v) w ∧
      WellFormed (trayDisk.block 0) trayListing ∧
      (tree trayListing).Leads (EndsSep isSep "d/".toList) (.inl anodeRootdir)
        (components "d/".toList) (some (.inr trayDir)) ∧
      ¬ Prog.Yields (pfsWalkPath trayDisk.toDisk (fun _ => 0) v "d/".toList)
        (· = .ok ⟨trayDir.type, trayDir.anode, trayDir.size⟩) := by
  have hd : trayDisk.Reads := ofImage_reads _
  obtain ⟨v, w, hopen, hv⟩ := tray_opens
  have hcomponents : components "d/".toList = [[0x64]] := by decide
  have hleads : (tree trayListing).Leads (EndsSep isSep "d/".toList) (.inl anodeRootdir)
      (components "d/".toList) (some (.inr trayDir)) := by
    rw [hcomponents]
    exact tray_leads _ _ rfl
  have hslash : EndsSep isSep "d/".toList := ⟨'/', rfl, rfl⟩
  refine ⟨v, w, hopen, tray_wellFormed, hleads, fun h => ?_⟩
  obtain ⟨r, rfl, hr⟩ := Exfat.yields_both h
    ((walker trayDisk.toDisk (fun _ => 0) v).walkPath_resolved
      (tray_wellFormed.searches hd (fun _ => 0) hv (show "d/".toList.length < 2 ^ 32 by decide)))
  obtain ⟨ret, hret, -⟩ | ⟨n, t, ht, hn, hshows⟩ := hr
  · cases hret
  · obtain rfl := Except.ok.inj ht
    obtain rfl := Option.some.inj (hn.unique hleads .root
      fun n _ _ c m k => tree_functional trayListing n m k)
    cases result_of_shows hshows with
    | entry h => exact h hslash

end Pfs

end Pegasos2.Fs
