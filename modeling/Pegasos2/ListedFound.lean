import Pegasos2.PfsPaths
import Pegasos2.SfsPaths

namespace Pegasos2.Fs
open Program
set_option autoImplicit true

/-- Every name that is listed is found, and every name that is found is listed, up to case
folding. -/
def Agrees (list : Io (List ε)) (lookup : List UInt8 → Io (Except Retcode ε))
    (name : ε → List UInt8) (folded : List UInt8 → List UInt8) : Prop :=
  Prog.Yields list fun es =>
    (∀ e ∈ es, Prog.Yields (lookup (name e)) fun r => ∃ e', r = .ok e') ∧
    ∀ c : List UInt8, c.length < 2 ^ 32 → Prog.Yields (lookup c) fun r =>
      ∀ e, r = .ok e → ∃ e' ∈ es, folded (name e') = folded c

/-- Each of some entries has a namesake among others. -/
def Namesakes (name : ε → List UInt8) (folded : List UInt8 → List UInt8) (es es' : List ε) : Prop :=
  ∀ e ∈ es, ∃ e' ∈ es', folded (name e') = folded (name e)

theorem Namesakes.of_subset {name : ε → List UInt8} (h : es ⊆ es') :
    Namesakes name folded es es' := fun e he => ⟨e, h he, rfl⟩

theorem namesakes_append {name : ε → List UInt8} {es₁ es₂ : List ε} :
    Namesakes name folded (es₁ ++ es₂) es' ↔
      Namesakes name folded es₁ es' ∧ Namesakes name folded es₂ es' := by
  constructor
  · intro h
    exact ⟨fun e he => h e (List.mem_append_left es₂ he),
      fun e he => h e (List.mem_append_right es₁ he)⟩
  · rintro ⟨h₁, h₂⟩ e he
    obtain he | he := List.mem_append.1 he
    · exact h₁ e he
    · exact h₂ e he

/-- The entries `listed` are listed, and names are looked for among the entries `searched`. -/
theorem agrees_iff {list : Io (List ε)} {lookup : List UInt8 → Io (Except Retcode ε)}
    {name : ε → List UInt8} {folded : List UInt8 → List UInt8} {hit : List UInt8 → ε → Bool}
    (hlist : Prog.Yields list (· = listed))
    (hlookup : ∀ c, Prog.Yields (lookup c) fun r =>
      (∃ e, searched.find? (hit c) = some e ∧ r = .ok e) ∨
        searched.find? (hit c) = none ∧ ∃ ret, r = .error ret)
    (hhit : ∀ c : List UInt8, c.length < 2 ^ 32 → ∀ e, hit c e = true ↔ folded (name e) = folded c)
    (hlisted : ∀ e ∈ listed, (name e).length < 2 ^ 32)
    (hsearched : ∀ e ∈ searched, (name e).length < 2 ^ 32) :
    Agrees list lookup name folded ↔
      Namesakes name folded listed searched ∧ Namesakes name folded searched listed := by
  constructor
  · intro h
    obtain ⟨_, rfl, hfound, hshown⟩ := Exfat.yields_both hlist h
    constructor
    · intro e he
      obtain ⟨r, hr, e', rfl⟩ := Exfat.yields_both (hlookup (name e)) (hfound e he)
      obtain ⟨e'', hfind, -⟩ | ⟨-, ret, hret⟩ := hr
      · exact ⟨e'', List.mem_of_find?_eq_some hfind,
          (hhit _ (hlisted e he) e'').1 (List.find?_some hfind)⟩
      · cases hret
    · intro e he
      have hlen := hsearched e he
      obtain ⟨r, hr, hr'⟩ := Exfat.yields_both (hlookup (name e)) (hshown (name e) hlen)
      obtain ⟨e', -, rfl⟩ | ⟨hnone, -⟩ := hr
      · exact hr' e' rfl
      · exact absurd ((hhit _ hlen e).2 rfl) (List.find?_eq_none.1 hnone e he)
  · rintro ⟨hfound, hshown⟩
    apply hlist.mono
    rintro _ rfl
    constructor
    · intro e he
      apply (hlookup (name e)).mono
      rintro r (⟨e', -, rfl⟩ | ⟨hnone, -⟩)
      · exact ⟨e', rfl⟩
      · obtain ⟨e', he', hname⟩ := hfound e he
        exact absurd ((hhit _ (hlisted e he) e').2 hname) (List.find?_eq_none.1 hnone e' he')
    · intro c hc
      apply (hlookup c).mono
      rintro r (⟨e', hfind, rfl⟩ | ⟨-, ret, rfl⟩)
      · intro e he
        obtain rfl := Except.ok.inj he
        have hname := (hhit c hc e').1 (List.find?_some hfind)
        obtain ⟨e'', he'', hname'⟩ := hshown e' (List.mem_of_find?_eq_some hfind)
        exact ⟨e'', he'', hname'.trans hname⟩
      · intro e he
        cases he

namespace Sfs

theorem length_name_lt (h : o ∈ objectsFrom b n off) : o.name.length < 2 ^ 32 := by
  induction n generalizing off with
  | zero => cases h
  | succ n ih =>
    rw [objectsFrom] at h
    split_ifs at h
    · cases h with
      | head =>
        have hle := cstringLen_le b (off + 25) (bsize - off - 25)
        have hlen : (object b off).name.length = cstringLen b (off + 25) (bsize - off - 25) := by
          rw [object, bytes, List.length_map, List.length_range]
        have hsmall : bsize - off - 25 < 2 ^ 32 :=
          Nat.lt_of_le_of_lt (Nat.le_trans (Nat.sub_le _ _) (Nat.sub_le _ _)) (by decide)
        rw [hlen]
        exact Nat.lt_of_le_of_lt hle hsmall
      | tail _ h => exact ih h
    · cases h

theorem mem_walked (h : o ∈ walked own cs) : o.name.length < 2 ^ 32 := by
  obtain ⟨c, -, ho⟩ := List.mem_flatMap.1 h
  exact length_name_lt ho

/-- The containers of a directory of the drive. -/
def driveContainers (d : Drive) (v : Volume) (firstOc : Nat) : List (Nat × Buf) :=
  containers (d.block v.partLoc) 4096 firstOc

theorem agrees_iff (d : Drive) (stack : Buf) (v : Volume) (firstOc : Nat) :
    Agrees (sfsListDirectory d.toDisk stack v firstOc) (sfsDirLookup d.toDisk stack v firstOc)
      Object.name v.folded ↔
    Namesakes Object.name v.folded
      (walked false ((driveContainers d v firstOc).dropWhile Owns))
      (walked true (driveContainers d v firstOc)) := by
  have hsplit : walked false (driveContainers d v firstOc) =
      walked true (driveContainers d v firstOc) ++
        walked false ((driveContainers d v firstOc).dropWhile Owns) := by
    conv_lhs =>
      rw [← List.takeWhile_append_dropWhile (p := Owns) (l := driveContainers d v firstOc)]
    exact List.flatMap_append
  have hlist : Prog.Yields (sfsListDirectory d.toDisk stack v firstOc)
      (· = walked false (driveContainers d v firstOc)) := by
    apply Prog.Yields.bind (dirLoop_yields (d.hasBlocks v.partLoc) stack false (fun _ => false)
      (Nat.zero_add 4096) [])
    rintro e ⟨hpassed, -⟩
    apply Prog.Yields.pure
    rw [hpassed, List.nil_append]
    exact List.takeWhile_eq_self_iff.2 fun _ _ => rfl
  have hlookup (c : List UInt8) : Prog.Yields (sfsDirLookup d.toDisk stack v firstOc c) fun r =>
      (∃ o, (walked true (driveContainers d v firstOc)).find? (fun o => sfsNameEq v o.name c) =
          some o ∧ r = .ok o) ∨
        (walked true (driveContainers d v firstOc)).find? (fun o => sfsNameEq v o.name c) = none ∧
          ∃ ret, r = .error ret := by
    apply Prog.Yields.bind (dirLoop_yields (d.hasBlocks v.partLoc) stack true
      (fun o => sfsNameEq v o.name c) (Nat.zero_add 4096) [])
    rintro e ⟨-, hfound⟩
    apply Prog.Yields.pure
    obtain hsome | ⟨hnone, ret, herror, -⟩ := hfound
    · exact .inl hsome
    · exact .inr ⟨hnone, ret, herror⟩
  have hhit (c : List UInt8) (hc : c.length < 2 ^ 32) (o : Object) :
      sfsNameEq v o.name c = true ↔ v.folded o.name = v.folded c := by
    rw [v.nameEq_iff hc, beq_iff_eq]
  have hboth := Fs.agrees_iff hlist hlookup hhit (fun o => mem_walked) fun o => mem_walked
  rw [hsplit, namesakes_append] at hboth
  apply hboth.trans
  constructor
  · exact fun h => h.1.2
  · intro h
    exact ⟨⟨.of_subset (List.Subset.refl _), h⟩, .of_subset (List.subset_append_left _ _)⟩

end Sfs

namespace Pfs

/-- The entries that a name is compared with, although they are not listed: those behind an entry
whose name does not fit into the block. -/
def hidden (b : Buf) : List Direntry :=
  (((entries b).dropWhile fun off => NameOk b off).filter fun off =>
    b.nat (off + 17) ≠ 0 ∧ NameOk b off).map (direntry b)

/-- The blocks of a directory in which every entry that is listed is found, and the other way
round. -/
structure Regular (bs : List Buf) : Prop where
  /-- No entry without a name is listed. -/
  named : ∀ e ∈ listedIn bs, e.name ≠ []
  /-- What is listed behind the first block that is not a directory block is found in front of
  it. -/
  behind : Namesakes Direntry.name (List.map foldCh) (listedIn (bs.dropWhile isDb)) (searchedIn bs)
  hidden : Namesakes Direntry.name (List.map foldCh) ((bs.takeWhile isDb).flatMap hidden)
    (listedIn bs)

theorem name_direntry (b : Buf) (off : Nat) :
    (direntry b off).name ≠ [] ↔ b.nat (off + 17) ≠ 0 := by
  rw [direntry, bytes, ne_eq, List.map_eq_nil_iff, List.range_eq_nil]

theorem length_name_lt (h : e ∈ listedIn bs ∨ e ∈ searchedIn bs) : e.name.length < 2 ^ 32 := by
  have hsmall (b : Buf) (off : Nat) : (direntry b off).name.length < 2 ^ 32 := by
    rw [direntry, bytes, List.length_map, List.length_range]
    exact Nat.lt_trans (b (off + 17)).toNat_lt (by decide)
  cases h with
  | inl h =>
    obtain ⟨b, -, he⟩ := List.mem_flatMap.1 h
    obtain ⟨off, -, rfl⟩ := List.mem_map.1 he
    exact hsmall b off
  | inr h =>
    obtain ⟨b, -, he⟩ := List.mem_flatMap.1 h
    obtain ⟨off, -, rfl⟩ := List.mem_map.1 he
    exact hsmall b off

theorem mem_searched (b : Buf) (e : Direntry) :
    e ∈ searched b ↔ (e ∈ listed b ∧ e.name ≠ []) ∨ e ∈ hidden b := by
  have hsplit := List.takeWhile_append_dropWhile (p := fun off => decide (NameOk b off))
    (l := entries b)
  rw [searched, ← hsplit, List.filter_append, List.map_append, List.mem_append]
  apply or_congr_left
  constructor
  · intro h
    obtain ⟨off, hoff, rfl⟩ := List.mem_map.1 h
    obtain ⟨hmem, hok⟩ := List.mem_filter.1 hoff
    exact ⟨List.mem_map_of_mem hmem, (name_direntry b off).2 (of_decide_eq_true hok).1⟩
  · rintro ⟨h, hname⟩
    obtain ⟨off, hmem, rfl⟩ := List.mem_map.1 h
    have hok : decide (NameOk b off) = true :=
      List.mem_takeWhile_imp (p := fun off => decide (NameOk b off)) hmem
    apply List.mem_map_of_mem
    apply List.mem_filter.2
    exact ⟨hmem, decide_eq_true ⟨(name_direntry b off).1 hname, of_decide_eq_true hok⟩⟩

theorem mem_searchedIn (bs : List Buf) (e : Direntry) :
    e ∈ searchedIn bs ↔ (e ∈ (bs.takeWhile isDb).flatMap listed ∧ e.name ≠ []) ∨
      e ∈ (bs.takeWhile isDb).flatMap hidden := by
  rw [searchedIn, List.mem_flatMap, List.mem_flatMap, List.mem_flatMap]
  constructor
  · rintro ⟨b, hb, he⟩
    obtain ⟨he, hname⟩ | he := (mem_searched b e).1 he
    · exact .inl ⟨⟨b, hb, he⟩, hname⟩
    · exact .inr ⟨b, hb, he⟩
  · rintro (⟨⟨b, hb, he⟩, hname⟩ | ⟨b, hb, he⟩)
    · exact ⟨b, hb, (mem_searched b e).2 (.inl ⟨he, hname⟩)⟩
    · exact ⟨b, hb, (mem_searched b e).2 (.inr he)⟩

theorem listedIn_split (bs : List Buf) :
    listedIn bs = (bs.takeWhile isDb).flatMap listed ++ listedIn (bs.dropWhile isDb) := by
  have htake : (bs.takeWhile isDb).filter isDb = bs.takeWhile isDb :=
    List.filter_eq_self.2 fun b hb => List.mem_takeWhile_imp hb
  conv_lhs => rw [← List.takeWhile_append_dropWhile (p := isDb) (l := bs)]
  rw [listedIn_append, listedIn, htake]

theorem regular_iff (bs : List Buf) :
    Namesakes Direntry.name (List.map foldCh) (listedIn bs) (searchedIn bs) ∧
        Namesakes Direntry.name (List.map foldCh) (searchedIn bs) (listedIn bs) ↔ Regular bs := by
  have hsplit := listedIn_split bs
  constructor
  · rintro ⟨hfound, hshown⟩
    constructor
    · intro e he hempty
      obtain ⟨e', he', hname⟩ := hfound e he
      rw [hempty, List.map_nil, List.map_eq_nil_iff] at hname
      obtain ⟨b, -, he'⟩ := List.mem_flatMap.1 he'
      obtain ⟨off, hoff, rfl⟩ := List.mem_map.1 he'
      have hok := of_decide_eq_true (List.mem_filter.1 hoff).2
      exact (name_direntry b off).2 hok.1 hname
    · intro e he
      rw [hsplit] at hfound
      exact hfound e (List.mem_append_right _ he)
    · intro e he
      exact hshown e ((mem_searchedIn bs e).2 (.inr he))
  · intro h
    constructor
    · intro e he
      have hname := h.named e he
      rw [hsplit, List.mem_append] at he
      cases he with
      | inl he => exact ⟨e, (mem_searchedIn bs e).2 (.inl ⟨he, hname⟩), rfl⟩
      | inr he => exact h.behind e he
    · intro e he
      obtain ⟨he, -⟩ | he := (mem_searchedIn bs e).1 he
      · refine ⟨e, ?_, rfl⟩
        rw [hsplit]
        exact List.mem_append_left _ he
      · exact h.hidden e he

theorem agrees_iff {d : Disk} {block : Nat → Option Buf} (hd : d.HasBlocks loc block) (stack : Buf)
    {v : Volume} (hv : IsOpen v loc root) (anr : Nat) :
    Agrees (pfsListDir d stack v anr) (pfsDirLookup d stack v anr) Direntry.name (List.map foldCh) ↔
      Regular (dirBlocks block root 4096 anr) := by
  have hlist := pfsListDir_yields hd stack hv anr (Nat.zero_add 4096) []
  have hlookup (c : List UInt8) := pfsDirLookup_yields hd stack hv anr c (Nat.zero_add 4096)
  have hhit (c : List UInt8) (hc : c.length < 2 ^ 32) (e : Direntry) :
      nameEq foldCh e.name c = true ↔ e.name.map foldCh = c.map foldCh := nameEq_iff hc
  rw [← regular_iff]
  exact Fs.agrees_iff hlist hlookup hhit (fun e he => length_name_lt (.inl he)) fun e he =>
    length_name_lt (.inr he)

end Pfs

/-- An SFS directory is listed behind the first container that does not name its own block. A PFS3
directory is listed behind a block that is no directory block, but not behind a name that does not
fit. -/
theorem agrees_exactly (d : Drive) (stack buf : Buf) (loc dostype : Nat) :
    (∀ (v : Sfs.Volume) (firstOc : Nat),
      Agrees (Sfs.sfsListDirectory d.toDisk stack v firstOc)
          (Sfs.sfsDirLookup d.toDisk stack v firstOc) Sfs.Object.name v.folded ↔
        Namesakes Sfs.Object.name v.folded
          (Sfs.walked false ((Sfs.driveContainers d v firstOc).dropWhile Sfs.Owns))
          (Sfs.walked true (Sfs.driveContainers d v firstOc))) ∧
      Prog.Yields (Pfs.pfsOpenVolume d.toDisk loc dostype buf) fun x => ∀ v, x = some v →
        ∃ root, d.block loc 2 = some root ∧ ∀ anr,
          (Agrees (Pfs.pfsListDir d.toDisk stack v anr) (Pfs.pfsDirLookup d.toDisk stack v anr)
              Pfs.Direntry.name (List.map foldCh) ↔
            Pfs.Regular (Pfs.dirBlocks (d.block loc) root 4096 anr)) := by
  constructor
  · exact Sfs.agrees_iff d stack
  · apply (Pfs.pfsOpenVolume_isOpen (d.hasBlocks loc) dostype buf).mono
    rintro x ⟨hopen, -⟩ v hv
    obtain ⟨root, hroot, hopen⟩ := hopen v hv
    exact ⟨root, hroot, Pfs.agrees_iff (d.hasBlocks loc) stack hopen⟩

/-- An SFS whose root directory is block 3, with a file `A`. The container there says that it is
block 9. -/
def strayDrive : Drive where
  toImageDisk := Disk.ofImage (written [be 4 4 4294901146, be 12 2 1, be 48 4 100, be 52 4 512,
    be 104 4 2, be 1024 4 Sfs.blockidObjc, be 1052 4 1, be 1064 4 3, be 1536 4 Sfs.blockidObjc,
    be 1544 4 9, be 1564 4 5, be 1572 4 7, be 1576 4 9, be 1585 1 0x41])
  steady _ _ _ _ := rfl

theorem strayDrive_listed :
    ∃ v w, Prog.Halts (Sfs.sfsOpenVolume strayDrive.toDisk (fun _ => 0) 0 Sfs.dostypeMagic24
        fun _ => 0) Rdb.boot (some v) w ∧
      ¬ Agrees (Sfs.sfsListDirectory strayDrive.toDisk (fun _ => 0) v v.rootDirFirstOc)
        (Sfs.sfsDirLookup strayDrive.toDisk (fun _ => 0) v v.rootDirFirstOc) Sfs.Object.name
        v.folded := by
  have hfacts : ((Sfs.sfsOpenVolume strayDrive.toDisk (fun _ => 0) 0 Sfs.dostypeMagic24
      fun _ => 0).run 0 Rdb.boot).map (fun y => y.1.map fun v => (v.partLoc, v.rootDirFirstOc)) =
        some (some (0, 3)) := by decide +kernel
  cases hrun : (Sfs.sfsOpenVolume strayDrive.toDisk (fun _ => 0) 0 Sfs.dostypeMagic24
      fun _ => 0).run 0 Rdb.boot with
  | none =>
    rw [hrun] at hfacts
    cases hfacts
  | some y =>
    rw [hrun] at hfacts
    obtain ⟨x, w⟩ := y
    cases x with
    | none => cases hfacts
    | some v =>
      obtain ⟨hloc, hfirst⟩ := Prod.mk.inj (Option.some.inj (Option.some.inj hfacts))
      refine ⟨v, w, ⟨0, hrun⟩, ?_⟩
      have hlisted : (Sfs.walked false ((Sfs.containers (strayDrive.block 0) 4096 3).dropWhile
          Sfs.Owns)).length = 1 := by decide +kernel
      have hsearched :
          (Sfs.walked true (Sfs.containers (strayDrive.block 0) 4096 3)).length = 0 := by
        decide +kernel
      rw [Sfs.agrees_iff, hfirst, Sfs.driveContainers, hloc]
      intro h
      obtain ⟨o, ho⟩ := List.exists_mem_of_length_pos (Nat.lt_of_lt_of_eq Nat.one_pos hlisted.symm)
      obtain ⟨o', ho', -⟩ := h o ho
      rw [List.eq_nil_of_length_eq_zero hsearched] at ho'
      cases ho'

end Pegasos2.Fs
