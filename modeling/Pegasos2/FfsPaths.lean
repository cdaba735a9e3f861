import Pegasos2.FfsContents
import Pegasos2.Tokens
import Mathlib.Data.List.Nodup

namespace Pegasos2.Fs
open Program
open PartitionPkg (Agree)
open Tokens (tokens EndsSep)
set_option autoImplicit true

namespace Ffs

/-- Where the name of a header block is. -/
def Volume.namePos (v : Volume) : Nat := if v.isLnfs then offLnfsNac v.bsize else offName v.bsize

/-- The name of a header block under the case folding of the volume. -/
def Volume.folded (v : Volume) (name : List UInt8) : List UInt8 := name.map (foldCh v.isIntl)

def Volume.name (v : Volume) (block : Buf) : List UInt8 := extractName v.bsize v.isLnfs block

/-- A header block with a name of 1 to 107 characters, all of them in the block. -/
structure Named (v : Volume) (block : Buf) : Prop where
  header : be32 block 0 = tHeader
  pos : 1 ≤ block.nat v.namePos
  le : block.nat v.namePos ≤ 107
  inside : v.namePos + 1 + block.nat v.namePos ≤ v.bsize

/-- The header blocks of a hash chain. As the list is finite, the chain has no cycle. -/
inductive HashChain (v : Volume) (image : Nat → UInt8) : Nat → List Nat → Prop where
  | nil : HashChain v image 0 []
  | cons (hpos : n ≠ 0) (hnamed : Named v (v.block image n))
      (rest : HashChain v image (be32 (v.block image n) (offNextHash v.bsize)) ns) :
      HashChain v image n (n :: ns)

/-- The entries of a directory, in the order of its hash table. -/
def Volume.entries (v : Volume) (chains : Nat → List Nat) : List Nat :=
  (List.range (htEntries v.bsize)).flatMap chains

/-- A directory with the block `dir`. Each entry is in the chain of its bucket. -/
structure Directory (v : Volume) (image : Nat → UInt8) (dir : Buf) (chains : Nat → List Nat) :
    Prop where
  chain : ∀ i < htEntries v.bsize, HashChain v image (be32 dir (htOffset + i * 4)) (chains i)
  bucket : ∀ i < htEntries v.bsize, ∀ n ∈ chains i,
    nameHash v.isIntl v.bsize (v.name (v.block image n)) = i
  distinct : ((v.entries chains).map fun n => v.folded (v.name (v.block image n))).Nodup

def IsDir (v : Volume) (block : Buf) : Prop :=
  be32 block (offSecType v.bsize) = stUserdir ∨ be32 block (offSecType v.bsize) = stRoot

/-- The tree of a volume. `chains n` are the hash chains of the directory `n`. -/
def Volume.tree (v : Volume) (image : Nat → UInt8) (chains : Nat → Nat → List Nat) :
    NameTree Nat (List UInt8) where
  IsDir n := IsDir v (v.block image n)
  Entry n c m := m ∈ v.entries (chains n) ∧ v.folded (v.name (v.block image m)) = v.folded c

/-- A well-formed volume, whose root block is in `rootbuf`. -/
structure WellFormed (v : Volume) (image : Nat → UInt8) (chains : Nat → Nat → List Nat) :
    Prop where
  nonzero : v.rootBlock ≠ 0
  cached : Agree v.bsize v.rootbuf (v.block image v.rootBlock)
  root : be32 (v.block image v.rootBlock) (offSecType v.bsize) = stRoot
  dirs : ∀ n, (v.tree image chains).Reaches v.rootBlock n → IsDir v (v.block image n) →
    Directory v image (v.block image n) (chains n)

theorem nameHash_congr {bsize : Nat} {intl : Bool} {a b : List UInt8}
    (h : a.map (foldCh intl) = b.map (foldCh intl)) :
    nameHash intl bsize a = nameHash intl bsize b := by
  have hlen : a.length = b.length := by
    have := congrArg List.length h
    rwa [List.length_map, List.length_map] at this
  have hfold (l : List UInt8) (n : Nat) : l.foldl (hashStep intl) n =
      (l.map (foldCh intl)).foldl (fun h c => (h * 13 + c.toNat) % 2 ^ 11) n := by
    rw [List.foldl_map]
    rfl
  rw [nameHash, nameHash, hfold, hfold, h, hlen]

theorem nameEq_iff {intl : Bool} {a b : List UInt8} :
    nameEq intl a b = true ↔ a.map (foldCh intl) = b.map (foldCh intl) := by
  rw [nameEq, Bool.and_eq_true, beq_iff_eq, beq_iff_eq]
  constructor
  · intro h
    exact h.2
  · intro h
    have hlen := congrArg List.length h
    rw [List.length_map, List.length_map] at hlen
    exact ⟨hlen, h⟩

theorem Named.length {v : Volume} {block : Buf} (h : Named v block) :
    1 ≤ (v.name block).length ∧ (v.name block).length ≤ 107 := by
  have hlen : (v.name block).length = block.nat v.namePos := by
    rw [Volume.name, extractName, bytes, List.length_map, List.length_range, Volume.namePos]
  rw [hlen]
  exact ⟨h.pos, h.le⟩

theorem Named.name_congr {v : Volume} {block b : Buf} (h : Named v block)
    (hb : Agree v.bsize b block) : v.name b = v.name block := by
  have hinside := h.inside
  have hlen : b v.namePos = block v.namePos := hb _ (by omega)
  rw [Volume.namePos] at hlen hinside
  rw [Volume.name, Volume.name, extractName, extractName, bytes, bytes, Buf.nat, hlen]
  apply List.map_congr_left
  intro i hi
  have hlt := List.mem_range.1 hi
  rw [Buf.nat] at hinside
  apply hb
  omega

section Paths

variable {v : Volume} {d : ImageDisk} {chains : Nat → Nat → List Nat}

theorem HashChain.named {image : Nat → UInt8} (h : HashChain v image first ns) (hn : n ∈ ns) :
    n ≠ 0 ∧ Named v (v.block image n) := by
  induction h with
  | nil => cases hn
  | cons hpos hnamed rest ih =>
    cases hn with
    | head => exact ⟨hpos, hnamed⟩
    | tail _ hn => exact ih hn

theorem mem_entries {chains : Nat → List Nat} :
    n ∈ v.entries chains ↔ ∃ i < htEntries v.bsize, n ∈ chains i := by
  rw [Volume.entries, List.mem_flatMap]
  constructor
  · rintro ⟨i, hi, hn⟩
    exact ⟨i, List.mem_range.1 hi, hn⟩
  · rintro ⟨i, hi, hn⟩
    exact ⟨i, List.mem_range.2 hi, hn⟩

theorem Directory.named {image : Nat → UInt8} {dir : Buf} {chains : Nat → List Nat}
    (h : Directory v image dir chains) (hn : n ∈ v.entries chains) :
    n ≠ 0 ∧ Named v (v.block image n) := by
  obtain ⟨i, hi, hn⟩ := mem_entries.1 hn
  exact (h.chain i hi).named hn

theorem Directory.eq_of_folded {image : Nat → UInt8} {dir : Buf} {chains : Nat → List Nat}
    (h : Directory v image dir chains) (hm : m ∈ v.entries chains) (hn : n ∈ v.entries chains)
    (hfold : v.folded (v.name (v.block image m)) = v.folded (v.name (v.block image n))) :
    m = n :=
  List.inj_on_of_nodup_map h.distinct hm hn hfold

theorem Directory.mem_bucket {image : Nat → UInt8} {dir : Buf} {chains : Nat → List Nat}
    (h : Directory v image dir chains) (hn : n ∈ v.entries chains)
    (hfold : v.folded (v.name (v.block image n)) = v.folded c) :
    n ∈ chains (nameHash v.isIntl v.bsize c) := by
  obtain ⟨i, hi, hn⟩ := mem_entries.1 hn
  have hhash := h.bucket i hi n hn
  rw [nameHash_congr hfold] at hhash
  rw [hhash]
  exact hn

variable (hd : d.Reads)

include hd

theorem hashChain_found (hchain : HashChain v d.image first ns) (hsize : 512 ≤ v.bsize)
    (c : List UInt8) (scratch : Buf) :
    Prog.Yields (.loop (chainRound d.toDisk v c) (first, scratch)) fun x =>
      (x.1 = 0 ∧ ∀ n ∈ ns, v.folded (v.name (v.block d.image n)) ≠ v.folded c) ∨
      (x.1 ∈ ns ∧ v.folded (v.name (v.block d.image x.1)) = v.folded c ∧
        Agree v.bsize x.2 (v.block d.image x.1)) := by
  induction hchain generalizing scratch with
  | nil =>
    apply Prog.Yields.loop_unfold
    rw [chainRound, if_pos rfl]
    apply Prog.Yields.pure
    left
    exact ⟨rfl, fun n hn => absurd hn List.not_mem_nil⟩
  | @cons n ns hpos hnamed rest ih =>
    apply Prog.Yields.loop_unfold
    rw [chainRound, if_neg hpos]
    apply Prog.Yields.bind (readBlock_reads hd n scratch)
    rintro ⟨ret, b⟩ ⟨hret, hb⟩
    apply Prog.Yields.pure
    have hzero : 0 + 4 ≤ v.bsize := Nat.le_trans (by decide) hsize
    have hheader : be32 b 0 = tHeader := (hb.be32 hzero).trans hnamed.header
    have hname := hnamed.name_congr hb
    have hnot : ¬ (ret ≠ .noError ∨ be32 b 0 ≠ tHeader) := by
      rintro (hne | hne)
      · exact hne hret
      · exact hne hheader
    rw [if_neg hnot]
    split_ifs with heq
    · right
      refine ⟨List.mem_cons_self, ?_, hb⟩
      have hfold : v.folded (v.name b) = v.folded c := nameEq_iff.1 heq
      rwa [hname] at hfold
    · have hnext : be32 b (offNextHash v.bsize) =
          be32 (v.block d.image n) (offNextHash v.bsize) :=
        field_congr hb hsize (by decide) (by decide)
      have hother : v.folded (v.name (v.block d.image n)) ≠ v.folded c := by
        intro hfold
        apply heq
        apply nameEq_iff.2
        rwa [← hname] at hfold
      rw [hnext]
      apply (ih b).mono
      rintro x (⟨hzero, hnone⟩ | ⟨hmem, hfold, hagree⟩)
      · left
        refine ⟨hzero, fun m hm => ?_⟩
        cases hm with
        | head => exact hother
        | tail _ hm => exact hnone m hm
      · right
        exact ⟨List.mem_cons_of_mem _ hmem, hfold, hagree⟩

/-- The search of a directory finds the entry with the name, or there is none. -/
theorem lookupInHash_found (hsize : 512 ≤ v.bsize) (hdir : Directory v d.image dir ch)
    (hb : Agree v.bsize b dir) (c : List UInt8) (scratch : Buf) :
    Prog.Yields (lookupInHash d.toDisk v b c scratch) fun x =>
      (x.1 = 0 ∧ ∀ n ∈ v.entries ch, v.folded (v.name (v.block d.image n)) ≠ v.folded c) ∨
      (x.1 ≠ 0 ∧ x.1 ∈ v.entries ch ∧ v.folded (v.name (v.block d.image x.1)) = v.folded c ∧
        Agree v.bsize x.2 (v.block d.image x.1)) := by
  have hbucket : nameHash v.isIntl v.bsize c < htEntries v.bsize := nameHash_lt hsize c
  have hslot : htOffset + nameHash v.isIntl v.bsize c * 4 + 4 ≤ v.bsize :=
    slot_le hsize hbucket
  have hchain := hdir.chain _ hbucket
  rw [lookupInHash, hb.be32 hslot]
  apply (hashChain_found hd hchain hsize c scratch).mono
  rintro x (⟨hzero, hnone⟩ | ⟨hmem, hfold, hagree⟩)
  · left
    refine ⟨hzero, fun n hn hfold => ?_⟩
    exact hnone n (hdir.mem_bucket hn hfold) hfold
  · right
    exact ⟨(hchain.named hmem).1, mem_entries.2 ⟨_, hbucket, hmem⟩, hfold, hagree⟩

omit hd

/-- The components of a path. -/
def components (path : List Char) : List (List UInt8) :=
  (tokens isSep path).map fun t => t.map fun c => .ofNat c.toNat

theorem components_skip (h : component cur = []) :
    components cur = components (fromSep cur).tail := by
  have hfirst : Tokens.first isSep cur = [] := List.map_eq_nil_iff.1 h
  rw [components, Tokens.tokens_skip hfirst]
  rfl

theorem components_next (h : component cur ≠ []) :
    components cur = component cur :: components (fromSep cur).tail := by
  have hfirst : Tokens.first isSep cur ≠ [] := fun hnil => h (List.map_eq_nil_iff.2 hnil)
  rw [components, Tokens.tokens_next hfirst, List.map_cons]
  rfl

/-- A state of the path loop. Its directory is what the components in front of `cur` lead to. -/
structure AtDir (v : Volume) (image : Nat → UInt8) (chains : Nat → Nat → List Nat)
    (path : List Char) (s : PathPos) : Prop where
  reaches : (v.tree image chains).Reaches v.rootBlock s.currentBlock
  nonzero : s.currentBlock ≠ 0
  isDir : IsDir v (v.block image s.currentBlock)
  htBuf : Agree v.bsize s.htBuf (v.block image s.currentBlock)
  scratch : component s.cur = [] → Agree v.bsize s.scratch (v.block image s.currentBlock)
  slash : s.cur ≠ [] → (EndsSep isSep s.cur ↔ EndsSep isSep path)
  leads : ∀ r, (v.tree image chains).Leads (EndsSep isSep path) s.currentBlock
      (components s.cur) r →
    (v.tree image chains).Leads (EndsSep isSep path) v.rootBlock (components path) r

/-- The result of the path walk. -/
def Resolved (v : Volume) (image : Nat → UInt8) (chains : Nat → Nat → List Nat)
    (path : List Char) (x : Nat × Buf) : Prop :=
  (x.1 = 0 ∧ (v.tree image chains).Leads (EndsSep isSep path) v.rootBlock (components path) none) ∨
  (x.1 ≠ 0 ∧ (v.tree image chains).Reaches v.rootBlock x.1 ∧
    (v.tree image chains).Leads (EndsSep isSep path) v.rootBlock (components path) (some x.1) ∧
    Agree v.bsize x.2 (v.block image x.1))

theorem AtDir.skip {image : Nat → UInt8} (h : AtDir v image chains path s) (hcur : s.cur ≠ [])
    (hempty : component s.cur = []) :
    AtDir v image chains path { s with cur := (fromSep s.cur).tail } where
  reaches := h.reaches
  nonzero := h.nonzero
  isDir := h.isDir
  htBuf := h.htBuf
  scratch := fun _ => h.scratch hempty
  slash := fun hne => (Tokens.endsSep_tail hne).symm.trans (h.slash hcur)
  leads := fun r hr => h.leads r (components_skip hempty ▸ hr)

theorem isDir_congr (hb : Agree v.bsize b block) (hsize : 512 ≤ v.bsize) :
    IsDir v b ↔ IsDir v block := by
  rw [IsDir, IsDir, offSecType, field_congr hb hsize (Nat.le_refl 4) (by decide)]

theorem AtDir.found {image : Nat → UInt8} (h : AtDir v image chains path s) (hcur : s.cur ≠ [])
    (hname : component s.cur ≠ []) (hsize : 512 ≤ v.bsize) (hne : n ≠ 0)
    (hentry : (v.tree image chains).Entry s.currentBlock (component s.cur) n)
    {b : Buf} (hb : Agree v.bsize b (v.block image n)) :
    Prog.Yields.Next (AtDir v image chains path) (fun s => s.cur.length) s.cur.length
      (Resolved v image chains path) (PathPos.next v (fromSep s.cur) n b) := by
  have hreach := NameTree.Reaches.entry h.reaches h.isDir hentry
  have hleads (r : Option Nat) (hr : (v.tree image chains).Leads (EndsSep isSep path) n
      (components (fromSep s.cur).tail) r) :
      (v.tree image chains).Leads (EndsSep isSep path) v.rootBlock (components path) r := by
    apply h.leads
    rw [components_next hname]
    exact .enter h.isDir hentry hr
  rw [PathPos.next, if_neg hne]
  split_ifs with hlast hnoDir
  · right
    refine ⟨hne, hreach, hleads _ ?_, hb⟩
    rw [hlast]
    refine .here fun hslash => ?_
    exact absurd ((h.slash hcur).2 hslash) (Tokens.not_endsSep hlast)
  · left
    have hnot : ¬ IsDir v (v.block image n) := by
      rw [← isDir_congr hb hsize, IsDir, not_or]
      exact hnoDir
    refine ⟨rfl, hleads _ ?_⟩
    cases hrest : components (fromSep s.cur).tail with
    | nil =>
      refine .trailing ((h.slash hcur).1 ?_) hnot
      exact Tokens.endsSep_of_tokens_nil hlast (List.map_eq_nil_iff.1 hrest)
    | cons c cs => exact .noDir hnot
  · have hdir : IsDir v (v.block image n) := by
      rw [← isDir_congr hb hsize, IsDir]
      rwa [not_and_or, not_not, not_not] at hnoDir
    refine ⟨⟨hreach, hne, hdir, hb, fun _ => hb, fun htail => ?_, hleads⟩,
      length_tail_fromSep_lt hcur⟩
    exact (Tokens.endsSep_tail htail).symm.trans (h.slash hcur)

include hd

theorem pathLoop_resolves (hwf : WellFormed v d.image chains) (hsize : 512 ≤ v.bsize)
    (h : AtDir v d.image chains path s) :
    Prog.Yields (.loop (pathRound d.toDisk v) s) (Resolved v d.image chains path) := by
  apply Prog.Yields.loop (AtDir v d.image chains path) (fun s => s.cur.length)
  · intro s h
    rw [pathRound]
    split_ifs with hend hempty hlong
    · apply Prog.Yields.pure
      right
      refine ⟨h.nonzero, h.reaches, h.leads _ ?_, h.scratch ?_⟩
      · rw [hend]
        exact .here fun _ => h.isDir
      · rw [hend]
        rfl
    · exact Prog.Yields.pure ⟨h.skip hend hempty, length_tail_fromSep_lt hend⟩
    · have hdir := hwf.dirs _ h.reaches h.isDir
      apply Prog.Yields.pure
      left
      refine ⟨rfl, h.leads _ ?_⟩
      rw [components_next hempty]
      refine .absent h.isDir ?_
      rintro n ⟨hn, hfold⟩
      have hlen := congrArg List.length hfold
      have hname := (hdir.named hn).2.length.2
      rw [Volume.folded, Volume.folded, List.length_map, List.length_map] at hlen
      omega
    · have hdir := hwf.dirs _ h.reaches h.isDir
      apply Prog.Yields.bind (lookupInHash_found hd hsize hdir h.htBuf (component s.cur) s.scratch)
      rintro ⟨n, b⟩ (⟨hzero, hnone⟩ | ⟨hne, hmem, hfold, hb⟩)
      · apply Prog.Yields.pure
        rw [PathPos.next, if_pos hzero]
        left
        refine ⟨rfl, h.leads _ ?_⟩
        rw [components_next hempty]
        refine .absent h.isDir ?_
        rintro m ⟨hm, hfold⟩
        exact hnone m hm hfold
      · exact Prog.Yields.pure (h.found hend hempty hsize hne ⟨hmem, hfold⟩ hb)
  · exact h

omit hd in
theorem component_dropWhile {path : List Char} (h : path.dropWhile isSep ≠ []) :
    component (path.dropWhile isSep) ≠ [] := by
  have hsep := List.head?_dropWhile_not isSep path
  cases hpath : path.dropWhile isSep with
  | nil => exact absurd hpath h
  | cons c cs =>
    rw [hpath] at hsep
    have hc : isSep c = false := by simpa using hsep
    rw [component, List.takeWhile_cons_of_pos (by rw [hc]; rfl)]
    exact List.cons_ne_nil _ _

omit hd in
theorem AtDir.start {image : Nat → UInt8} (hwf : WellFormed v image chains) (path : List Char)
    (hne : path.dropWhile isSep ≠ []) (scratch : Buf) :
    AtDir v image chains path ⟨v.rootbuf, path.dropWhile isSep, v.rootBlock, scratch⟩ where
  reaches := .root
  nonzero := hwf.nonzero
  isDir := .inr hwf.root
  htBuf := hwf.cached
  scratch := by
    intro hempty
    exact absurd hempty (component_dropWhile hne)
  slash := by
    intro hcur
    have happend := Tokens.endsSep_append (p := isSep) (path.takeWhile isSep) hcur
    rw [List.takeWhile_append_dropWhile] at happend
    exact happend.symm
  leads := by
    intro r hr
    rwa [components, Tokens.tokens_dropWhile fun _ h => h] at hr

theorem walkPath_resolved (hwf : WellFormed v d.image chains) (hsize : 512 ≤ v.bsize)
    (path : List Char) (scratch : Buf) :
    Prog.Yields (walkPath d.toDisk v path scratch) (Resolved v d.image chains path) := by
  rw [walkPath]
  split_ifs with hempty
  · apply Prog.Yields.pure
    right
    refine ⟨hwf.nonzero, .root, ?_, fun j hj => ?_⟩
    · rw [components, ← Tokens.tokens_dropWhile fun _ h => h, hempty]
      exact .here fun _ => .inr hwf.root
    · show scratch.copy 0 v.rootbuf 0 v.bsize j = _
      rw [Buf.copy, if_pos ⟨Nat.zero_le j, by omega⟩, Nat.sub_zero, Nat.zero_add]
      exact hwf.cached j hj
  · exact pathLoop_resolves hd hwf hsize (.start hwf path hempty scratch)

omit hd in
theorem Named.line_congr {block b : Buf} (h : Named v block) (hb : Agree v.bsize b block)
    (hsize : 512 ≤ v.bsize) : line v b = line v block := by
  have htype : be32 b (offSecType v.bsize) = be32 block (offSecType v.bsize) :=
    field_congr hb hsize (Nat.le_refl 4) (by decide)
  have hbytes : be32 b (offByteSize v.bsize) = be32 block (offByteSize v.bsize) :=
    field_congr hb hsize (by decide) (by decide)
  have hname : extractName v.bsize v.isLnfs b = extractName v.bsize v.isLnfs block :=
    h.name_congr hb
  rw [line, line, htype, hbytes, hname]

theorem hashChain_listed (hchain : HashChain v d.image n ns) (hsize : 512 ≤ v.bsize)
    (l : Listing) :
    Prog.Yields (.loop (listRound d.toDisk v) (n, l)) fun x =>
      x.1 = true ∧ x.2.lines = l.lines ++ ns.map fun m => line v (v.block d.image m) := by
  induction hchain generalizing l with
  | nil =>
    apply Prog.Yields.loop_unfold
    rw [listRound, if_pos rfl]
    exact Prog.Yields.pure ⟨rfl, (List.append_nil _).symm⟩
  | @cons n ns hpos hnamed rest ih =>
    apply Prog.Yields.loop_unfold
    rw [listRound, if_neg hpos]
    apply Prog.Yields.bind (readBlock_reads hd n l.scratch)
    rintro ⟨ret, b⟩ ⟨hret, hb⟩
    apply Prog.Yields.pure
    have hnext : be32 b (offNextHash v.bsize) = be32 (v.block d.image n) (offNextHash v.bsize) :=
      field_congr hb hsize (by decide) (by decide)
    rw [if_neg fun hne => hne hret, hnext, hnamed.line_congr hb hsize]
    apply (ih _).mono
    rintro x ⟨hdone, hlines⟩
    refine ⟨hdone, ?_⟩
    rw [hlines, List.map_cons, List.append_assoc]
    rfl

theorem listDirectory_lines (hsize : 512 ≤ v.bsize) (hdir : Directory v d.image dir ch)
    (hb : Agree v.bsize b dir) (scratch : Buf) :
    Prog.Yields (listDirectory d.toDisk v b scratch) fun l =>
      l.lines = (v.entries ch).map fun n => line v (v.block d.image n) := by
  apply Prog.Yields.loop
    (fun s => s.1 ≤ htEntries v.bsize ∧ s.2.lines =
      ((List.range s.1).flatMap ch).map fun n => line v (v.block d.image n))
    (fun s => htEntries v.bsize - s.1)
  · rintro ⟨i, l⟩ ⟨hi, hlines⟩
    rw [bucketRound]
    split_ifs with hmore
    · have hslot := slot_le hsize hmore
      dsimp only
      rw [hb.be32 hslot]
      apply Prog.Yields.bind (hashChain_listed hd (hdir.chain i hmore) hsize l)
      rintro ⟨ok, l'⟩ ⟨hok, hlines'⟩
      obtain rfl : ok = true := hok
      apply Prog.Yields.pure
      refine ⟨⟨hmore, ?_⟩, Nat.sub_succ_lt_self _ _ hmore⟩
      rw [hlines', hlines, List.range_succ, List.flatMap_append, List.map_append,
        List.flatMap_singleton]
    · apply Prog.Yields.pure
      obtain rfl : i = htEntries v.bsize := Nat.le_antisymm hi (Nat.not_lt.1 hmore)
      exact hlines
  · exact ⟨Nat.zero_le _, rfl⟩

end Paths

/-- A path is walked to the entry that it names, whose header block is in `scratch` then. The
listing of a directory shows each entry once. -/
theorem walkPath_resolves (v : Volume) (d : ImageDisk) (chains : Nat → Nat → List Nat)
    (path : List Char) (scratch : Buf) (hd : d.Reads) (hsize : 512 ≤ v.bsize)
    (hwf : WellFormed v d.image chains) :
    Prog.Yields (walkPath d.toDisk v path scratch) fun x =>
      (x.1 = 0 ↔ (v.tree d.image chains).Leads (EndsSep isSep path) v.rootBlock (components path)
        none) ∧
      (∀ n, n ≠ 0 → (x.1 = n ↔ (v.tree d.image chains).Leads (EndsSep isSep path) v.rootBlock
        (components path) (some n))) ∧
      (x.1 ≠ 0 → Agree v.bsize x.2 (v.block d.image x.1) ∧
        (IsDir v (v.block d.image x.1) → (v.entries (chains x.1)).Nodup ∧ ∀ buf,
          Prog.Yields (listDirectory d.toDisk v x.2 buf) fun l =>
            l.lines = (v.entries (chains x.1)).map fun n => line v (v.block d.image n))) := by
  have hone : ∀ n, (v.tree d.image chains).Reaches v.rootBlock n →
      (v.tree d.image chains).IsDir n → ∀ c m k, (v.tree d.image chains).Entry n c m →
      (v.tree d.image chains).Entry n c k → m = k := by
    rintro n hreach hdir c m k ⟨hm, hmc⟩ ⟨hk, hkc⟩
    exact (hwf.dirs n hreach hdir).eq_of_folded hm hk (hmc.trans hkc.symm)
  apply (walkPath_resolved hd hwf hsize path scratch).mono
  rintro ⟨n, b⟩ (⟨hzero, hnone⟩ | ⟨hne, hreach, hsome, hb⟩)
  · obtain rfl : n = 0 := hzero
    refine ⟨⟨fun _ => hnone, fun _ => rfl⟩, fun m hm => ⟨fun h => absurd h.symm hm, fun h => ?_⟩,
      fun h => absurd rfl h⟩
    cases h.unique hnone .root hone
  · refine ⟨⟨fun h => absurd h hne, fun h => ?_⟩, fun m hm => ⟨?_, fun h => ?_⟩, fun _ => ⟨hb, ?_⟩⟩
    · cases h.unique hsome .root hone
    · rintro rfl
      exact hsome
    · exact Option.some.inj (hsome.unique h .root hone)
    · intro hdir
      have hdirectory := hwf.dirs n hreach hdir
      exact ⟨List.Nodup.of_map _ hdirectory.distinct,
        fun buf => listDirectory_lines hd hsize hdirectory hb buf⟩

/-- A volume whose root, the block 880, has a file `A` in block 1. -/
def catalogDisk : ImageDisk :=
  Disk.ofImage (written [be 450560 4 tHeader, be 450608 4 1, be 451068 4 stRoot, be 512 4 tHeader,
    be 944 1 1, be 945 1 0x41, be 1020 4 stFile])

def catalog : Volume :=
  ⟨0, 901120, 512, 0, false, false, false, fun j => catalogDisk.image (450560 + j), 880⟩

def catalogChains (_ i : Nat) : List Nat := if i = 6 then [1] else []

theorem catalog_entries (n : Nat) : catalog.entries (catalogChains n) = [1] := by
  show (List.range 72).flatMap (catalogChains 0) = [1]
  decide +kernel

theorem catalog_named : Named catalog (catalog.block catalogDisk.image 1) :=
  ⟨by decide +kernel, by decide +kernel, by decide +kernel, by decide +kernel⟩

theorem catalog_directory :
    Directory catalog catalogDisk.image (catalog.block catalogDisk.image 880)
      (catalogChains 880) := by
  have hother : ∀ i < 72, i ≠ 6 →
      be32 (catalog.block catalogDisk.image 880) (htOffset + i * 4) = 0 := by decide +kernel
  have hfirst : be32 (catalog.block catalogDisk.image 880) (htOffset + 6 * 4) = 1 := by
    decide +kernel
  have hnext : be32 (catalog.block catalogDisk.image 1) (offNextHash 512) = 0 := by decide +kernel
  refine ⟨fun i hi => ?_, fun i hi n hn => ?_, ?_⟩
  · by_cases h6 : i = 6
    · rw [h6, hfirst, catalogChains, if_pos rfl]
      refine .cons (by decide) catalog_named ?_
      show HashChain catalog catalogDisk.image
        (be32 (catalog.block catalogDisk.image 1) (offNextHash 512)) []
      rw [hnext]
      exact .nil
    · rw [hother i hi h6, catalogChains, if_neg h6]
      exact .nil
  · rw [catalogChains] at hn
    split_ifs at hn with h6
    · rw [h6, List.mem_singleton.1 hn]
      decide +kernel
    · cases hn
  · rw [catalog_entries]
    exact List.nodup_singleton _

theorem catalog_wellFormed : WellFormed catalog catalogDisk.image catalogChains := by
  have hfile : ¬ IsDir catalog (catalog.block catalogDisk.image 1) := by
    rw [IsDir]
    decide +kernel
  have hreach (n : Nat) (h : (catalog.tree catalogDisk.image catalogChains).Reaches 880 n) :
      n = 880 ∨ n = 1 := by
    cases h with
    | root => exact .inl rfl
    | entry _ _ hentry =>
      right
      have hmem := hentry.1
      rw [catalog_entries] at hmem
      exact List.mem_singleton.1 hmem
  refine ⟨by decide, fun j _ => ?_, by decide +kernel, fun n hn hdir => ?_⟩
  · have hplace : u64 (0 + 880 * 512) = 450560 := by decide
    show catalogDisk.image (450560 + j) = catalogDisk.image (u64 (0 + 880 * 512) + j)
    rw [hplace]
  · obtain rfl | rfl := hreach n hn
    · exact catalog_directory
    · exact absurd hdir hfile

theorem walkPath_resolves_catalog :
    Prog.Yields (walkPath catalogDisk.toDisk catalog "//a".toList fun _ => 0) (·.1 = 1) := by
  have hcomponents : components "//a".toList = [[0x61]] := by decide
  have hslash : ¬ EndsSep isSep "//a".toList := by
    rintro ⟨c, hc, hsep⟩
    obtain rfl := Option.some.inj hc
    cases hsep
  apply (walkPath_resolves catalog catalogDisk catalogChains "//a".toList (fun _ => 0)
    (ofImage_reads _) (by decide) catalog_wellFormed).mono
  intro x hx
  apply (hx.2.1 1 (by decide)).2
  rw [hcomponents]
  refine .enter (.inr (by decide +kernel)) ⟨?_, by decide +kernel⟩ (.here fun h => absurd h hslash)
  rw [catalog_entries]
  exact List.mem_singleton_self _

end Ffs

end Pegasos2.Fs
