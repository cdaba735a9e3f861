import Pegasos2.AmigaSfs
import Pegasos2.VolumeBlocks

namespace Pegasos2.Fs
open Program
open PartitionPkg (Agree)
set_option autoImplicit true

namespace Sfs

/-- A block of the extent tree, with its entries inside of it. -/
structure Node (b : Buf) : Prop where
  id : be32 b 0 = blockidBndc
  low : 8 ≤ b.nat 15
  high : b.nat 15 ≤ 64
  fits : 16 + be16 b 12 * b.nat 15 ≤ bsize

def entryKey (b : Buf) (i : Nat) : Nat := be32 b (bnode b i)

def entryChild (b : Buf) (i : Nat) : Nat := be32 b (bnode b i + 4)

def leafExtent (b : Buf) (i : Nat) : Extent :=
  ⟨entryKey b i, be16 b (bnode b i + 12), be32 b (bnode b i + 4)⟩

/-- The extents of the leaves below block `n` in their order, with at most `depth` levels of leaves
below it. Entry `i` of an interior node is for the keys from its own on, up to the key of the entry
behind it. -/
inductive ExtentTree (block : Nat → Buf) : Nat → Nat → List Extent → Prop where
  | leaf (hn : n ≠ 0) (hnode : Node (block n)) (hleaf : (block n).nat 14 ≠ 0)
      (hstride : 14 ≤ (block n).nat 15)
      (hsorted : ∀ i j, i < j → j < be16 (block n) 12 →
        entryKey (block n) i < entryKey (block n) j) :
      ExtentTree block depth n ((List.range (be16 (block n) 12)).map (leafExtent (block n)))
  | interior {subs : Nat → List Extent} (hn : n ≠ 0) (hnode : Node (block n))
      (hint : (block n).nat 14 = 0)
      (hsorted : ∀ i j, i ≤ j → j < be16 (block n) 12 →
        entryKey (block n) i ≤ entryKey (block n) j)
      (hchild : ∀ i < be16 (block n) 12, ExtentTree block depth (entryChild (block n) i) (subs i))
      (hlow : ∀ i < be16 (block n) 12, ∀ x ∈ subs i, entryKey (block n) i ≤ x.first)
      (hhigh : ∀ i, i + 1 < be16 (block n) 12 → ∀ x ∈ subs i,
        x.first < entryKey (block n) (i + 1)) :
      ExtentTree block (depth + 1) n ((List.range (be16 (block n) 12)).flatMap subs)

theorem ExtentTree.ne_zero (h : ExtentTree block depth n xs) : n ≠ 0 := by
  cases h with
  | leaf hn => exact hn
  | interior hn => exact hn

section

variable {b c : Buf} (h : Agree bsize b c)

include h

theorem count_congr : be16 b 12 = be16 c 12 := Agree.be16 h (by decide)

theorem bnode_congr (i : Nat) : bnode b i = bnode c i := by
  rw [bnode, bnode, Agree.nat h (by decide)]

theorem Node.congr (hnode : Node c) : Node b := by
  have hid : be32 b 0 = be32 c 0 := h.be32 (by decide)
  have hsize : b.nat 15 = c.nat 15 := Agree.nat h (by decide)
  constructor
  · rw [hid]
    exact hnode.id
  · rw [hsize]
    exact hnode.low
  · rw [hsize]
    exact hnode.high
  · rw [count_congr h, hsize]
    exact hnode.fits

omit h in
theorem Node.entry_le (hnode : Node c) (hi : i < be16 c 12) : bnode c i + c.nat 15 ≤ bsize := by
  have hfits := hnode.fits
  have hle : (i + 1) * c.nat 15 ≤ be16 c 12 * c.nat 15 := Nat.mul_le_mul_right _ hi
  rw [Nat.succ_mul] at hle
  rw [bnode]
  omega

theorem entryKey_congr (hnode : Node c) (hi : i < be16 c 12) : entryKey b i = entryKey c i := by
  have hle := hnode.entry_le hi
  have hlow := hnode.low
  rw [entryKey, entryKey, bnode_congr h]
  exact h.be32 (by omega)

theorem entryChild_congr (hnode : Node c) (hi : i < be16 c 12) :
    entryChild b i = entryChild c i := by
  have hle := hnode.entry_le hi
  have hlow := hnode.low
  rw [entryChild, entryChild, bnode_congr h]
  exact h.be32 (by omega)

theorem leafExtent_congr (hnode : Node c) (hstride : 14 ≤ c.nat 15) (hi : i < be16 c 12) :
    leafExtent b i = leafExtent c i := by
  have hle := hnode.entry_le hi
  have hblocks : be16 b (bnode c i + 12) = be16 c (bnode c i + 12) := Agree.be16 h (by omega)
  have hnext : be32 b (bnode c i + 4) = be32 c (bnode c i + 4) := h.be32 (by omega)
  rw [leafExtent, leafExtent, entryKey_congr h hnode hi, bnode_congr h, hblocks, hnext]

end

theorem leafEntry_found (b : Buf) (key : Nat) (hle : i ≤ j) (hlt : j < i + n)
    (hkey : entryKey b j = key) (hfirst : ∀ k, i ≤ k → k < j → entryKey b k ≠ key) :
    leafEntry b key i n = some (bnode b j) := by
  induction n generalizing i with
  | zero => exact absurd hlt (Nat.not_lt.2 hle)
  | succ n ih =>
    rw [leafEntry]
    split_ifs with hhere
    · obtain rfl | hne := Nat.eq_or_lt_of_le hle
      · rfl
      · exact absurd hhere (hfirst i (Nat.le_refl i) hne)
    · have hne : i ≠ j := by
        rintro rfl
        exact hhere hkey
      apply ih (Nat.lt_of_le_of_ne hle hne)
      · omega
      · intro k hk
        exact hfirst k (Nat.le_of_succ_le hk)

theorem leafEntry_missing (b : Buf) (key : Nat)
    (h : ∀ k, i ≤ k → k < i + n → entryKey b k ≠ key) : leafEntry b key i n = none := by
  induction n generalizing i with
  | zero => rfl
  | succ n ih =>
    have hhere : ¬ be32 b (bnode b i) = key := h i (Nat.le_refl i) (by omega)
    rw [leafEntry, if_neg hhere]
    apply ih
    intro k hk hlt
    exact h k (Nat.le_of_succ_le hk) (by omega)

/-- The loop over the entries of an interior node stops at the first entry `j` whose key is above
`key`, and takes the child of the entry in front of it. -/
theorem childEntry_stops (b : Buf) (key c i n : Nat) :
    ∃ j, i ≤ j ∧ j ≤ i + n ∧ (∀ k, i ≤ k → k < j → entryKey b k ≤ key) ∧
      (j < i + n → key < entryKey b j) ∧
      childEntry b key c i n = if j = i then c else entryChild b (j - 1) := by
  induction n generalizing c i with
  | zero =>
    refine ⟨i, Nat.le_refl i, Nat.le_refl i, fun k hk hlt => ?_, fun hlt => ?_, (if_pos rfl).symm⟩
    · exact absurd hlt (Nat.not_lt.2 hk)
    · exact absurd hlt (Nat.lt_irrefl i)
  | succ n ih =>
    rw [childEntry]
    split_ifs with hhere
    · obtain ⟨j, hij, hjn, hbelow, habove, hchild⟩ := ih (entryChild b i) (i + 1)
      refine ⟨j, Nat.le_of_succ_le hij, by omega, fun k hk hlt => ?_, fun hlt => ?_, ?_⟩
      · obtain rfl | hne := Nat.eq_or_lt_of_le hk
        · exact hhere
        · exact hbelow k hne hlt
      · exact habove (by omega)
      · have hj : j ≠ i := Nat.ne_of_gt hij
        rw [if_neg hj]
        apply hchild.trans
        split_ifs with hnext
        · rw [hnext, Nat.add_sub_cancel]
        · rfl
    · refine ⟨i, Nat.le_refl i, Nat.le_add_right _ _, fun k hk hlt => ?_, fun _ => ?_,
        (if_pos rfl).symm⟩
      · exact absurd hlt (Nat.not_lt.2 hk)
      · exact Nat.not_le.1 hhere

theorem child_only {b : Buf} (hpos : be16 b 12 ≠ 0)
    (hsorted : ∀ i j, i ≤ j → j < be16 b 12 → entryKey b i ≤ entryKey b j)
    (hne : ∀ i < be16 b 12, entryChild b i ≠ 0) (key : Nat) :
    ∃ j < be16 b 12, child b key = entryChild b j ∧ ∀ i < be16 b 12, entryKey b i ≤ key →
      (i + 1 < be16 b 12 → key < entryKey b (i + 1)) → i = j := by
  obtain ⟨j, -, hjn, hbelow, habove, hchild⟩ := childEntry_stops b key 0 0 (be16 b 12)
  rw [Nat.zero_add] at hjn habove
  cases j with
  | zero =>
    -- `key` is before all keys
    refine ⟨0, Nat.pos_of_ne_zero hpos, ?_, fun i hi hkey _ => ?_⟩
    · have hfirst : bnode b 0 = 16 := by rw [bnode, Nat.zero_mul]
      rw [child, hchild, if_pos rfl, if_pos rfl, entryChild, hfirst]
    · have hlt := habove (Nat.pos_of_ne_zero hpos)
      have hle := hsorted 0 i (Nat.zero_le i) hi
      exact absurd hkey (Nat.not_le.2 (Nat.lt_of_lt_of_le hlt hle))
  | succ j =>
    refine ⟨j, hjn, ?_, fun i hi hkey hnext => ?_⟩
    · rw [if_neg (Nat.succ_ne_zero j), Nat.add_sub_cancel] at hchild
      rw [child, hchild, if_neg (hne j hjn)]
    · obtain hlt | rfl | hgt := Nat.lt_trichotomy i j
      · have hin : i + 1 < be16 b 12 := Nat.lt_of_le_of_lt hlt hjn
        have hle := hbelow (i + 1) (Nat.zero_le _) (Nat.succ_lt_succ hlt)
        exact absurd (hnext hin) (Nat.not_lt.2 hle)
      · rfl
      · have hlt := habove (Nat.lt_of_le_of_lt hgt hi)
        have hle := hsorted (j + 1) i hgt hi
        exact absurd hkey (Nat.not_le.2 (Nat.lt_of_lt_of_le hlt hle))

/-- The answer to a search for `key` among the extents `xs`. -/
def Answers (xs : List Extent) (key : Nat) (r : Except Retcode Extent) : Prop :=
  (∀ x ∈ xs, x.first = key → r = .ok x) ∧ ((∀ x ∈ xs, x.first ≠ key) → r = .error .eNoFile)

theorem leaf_answers {b : Buf}
    (hsorted : ∀ i j, i < j → j < be16 b 12 → entryKey b i < entryKey b j) (key : Nat) :
    Answers ((List.range (be16 b 12)).map (leafExtent b)) key
      (leaf b key (leafEntry b key 0 (be16 b 12))) := by
  constructor
  · intro x hx hkey
    obtain ⟨j, hj, rfl⟩ := List.mem_map.1 hx
    have hj := List.mem_range.1 hj
    have hkey : entryKey b j = key := hkey
    rw [leafEntry_found b key (Nat.zero_le j) (by omega) hkey, leaf, ← hkey]
    · rfl
    · intro k _ hk
      rw [← hkey]
      exact Nat.ne_of_lt (hsorted k j hk hj)
  · intro hnone
    rw [leafEntry_missing b key]
    · rfl
    · intro k _ hk
      exact hnone _ (List.mem_map_of_mem (List.mem_range.2 (by omega)))

theorem not_nodeOk (hnode : Node b) : ¬ NodeOk b ↔ be16 b 12 = 0 := by
  rw [NodeOk]
  constructor
  · intro h
    by_contra hpos
    exact h ⟨hnode.id, hnode.low, hnode.high, hpos, hnode.fits⟩
  · intro hzero h
    exact h.2.2.2.1 hzero

theorem Answers.nil (key : Nat) : Answers [] key (.error .eNoFile) :=
  ⟨fun _ hx => absurd hx List.not_mem_nil, fun _ => rfl⟩

/-- The answer of the child whose keys `key` is among is that of the node. -/
theorem Answers.of_child {b : Buf} {subs : Nat → List Extent} (hj : j < be16 b 12)
    (honly : ∀ i < be16 b 12, entryKey b i ≤ key →
      (i + 1 < be16 b 12 → key < entryKey b (i + 1)) → i = j)
    (hlow : ∀ i < be16 b 12, ∀ x ∈ subs i, entryKey b i ≤ x.first)
    (hhigh : ∀ i, i + 1 < be16 b 12 → ∀ x ∈ subs i, x.first < entryKey b (i + 1))
    (h : Answers (subs j) key r) : Answers ((List.range (be16 b 12)).flatMap subs) key r := by
  obtain ⟨hfound, hmissing⟩ := h
  constructor
  · intro x hx hfirst
    obtain ⟨i, hi, hx⟩ := List.mem_flatMap.1 hx
    have hi := List.mem_range.1 hi
    have hij : i = j := honly i hi (hfirst ▸ hlow i hi x hx)
      fun hsucc => hfirst ▸ hhigh i hsucc x hx
    rw [hij] at hx
    exact hfound x hx hfirst
  · intro hnone
    apply hmissing
    intro x hx
    exact hnone x (List.mem_flatMap.2 ⟨j, List.mem_range.2 hj, hx⟩)

/-- The descent ends at a leaf. -/
theorem descend_leaf {b c : Buf} (hb : Agree bsize b c) (hnode : Node c) (hleaf : c.nat 14 ≠ 0)
    (hstride : 14 ≤ c.nat 15)
    (hsorted : ∀ i j, i < j → j < be16 c 12 → entryKey c i < entryKey c j) (key depth : Nat) :
    ∃ r, descend key depth .noError b = .inr r ∧
      Answers ((List.range (be16 c 12)).map (leafExtent c)) key r := by
  have hnode' := hnode.congr hb
  have hcount := count_congr hb
  have hextents : (List.range (be16 b 12)).map (leafExtent b) =
      (List.range (be16 c 12)).map (leafExtent c) := by
    rw [hcount]
    apply List.map_congr_left
    intro i hi
    exact leafExtent_congr hb hnode hstride (List.mem_range.1 hi)
  by_cases hzero : be16 b 12 = 0
  · rw [descend, if_neg (not_not.2 rfl), if_pos ((not_nodeOk hnode').2 hzero), ← hextents, hzero]
    exact ⟨_, rfl, .nil key⟩
  · have hok : NodeOk b := not_not.1 fun hbad => hzero ((not_nodeOk hnode').1 hbad)
    have hkind : b.nat 14 ≠ 0 := by
      rw [Agree.nat hb (by decide)]
      exact hleaf
    have hkeys : ∀ i j, i < j → j < be16 b 12 → entryKey b i < entryKey b j := by
      intro i j hij hj
      rw [hcount] at hj
      rw [entryKey_congr hb hnode hj, entryKey_congr hb hnode (Nat.lt_trans hij hj)]
      exact hsorted i j hij hj
    rw [descend, if_neg (not_not.2 rfl), if_neg (not_not.2 hok), if_pos hkind, ← hextents]
    exact ⟨_, rfl, leaf_answers hkeys key⟩

/-- The descent goes on in the only child whose keys `key` can be among. -/
theorem descend_interior {b c : Buf} (hb : Agree bsize b c) (hnode : Node c)
    (hint : c.nat 14 = 0) (hpos : be16 c 12 ≠ 0)
    (hsorted : ∀ i j, i ≤ j → j < be16 c 12 → entryKey c i ≤ entryKey c j)
    (hne : ∀ i < be16 c 12, entryChild c i ≠ 0) (key depth : Nat) :
    ∃ j < be16 c 12, descend key depth .noError b = .inl (entryChild c j, depth + 1) ∧
      ∀ i < be16 c 12, entryKey c i ≤ key →
        (i + 1 < be16 c 12 → key < entryKey c (i + 1)) → i = j := by
  have hcount := count_congr hb
  have hkind : b.nat 14 = 0 := (Agree.nat hb (by decide)).trans hint
  have hpos' : be16 b 12 ≠ 0 := by
    rw [hcount]
    exact hpos
  have hok : NodeOk b := not_not.1 fun hbad => hpos' ((not_nodeOk (hnode.congr hb)).1 hbad)
  have hkey (i : Nat) (hi : i < be16 c 12) : entryKey b i = entryKey c i :=
    entryKey_congr hb hnode hi
  have hchild (i : Nat) (hi : i < be16 c 12) : entryChild b i = entryChild c i :=
    entryChild_congr hb hnode hi
  obtain ⟨j, hj, hdown, honly⟩ := child_only hpos'
    (fun i j hij hj => by
      rw [hcount] at hj
      rw [hkey j hj, hkey i (Nat.lt_of_le_of_lt hij hj)]
      exact hsorted i j hij hj)
    (fun i hi => by
      rw [hcount] at hi
      rw [hchild i hi]
      exact hne i hi)
    key
  rw [hcount] at hj honly
  refine ⟨j, hj, ?_, fun i hi hle hlt => honly i hi (by rwa [hkey i hi]) fun hsucc => ?_⟩
  · rw [descend, if_neg (not_not.2 rfl), if_neg (not_not.2 hok), if_neg (not_not.2 hkind), hdown,
      hchild j hj]
  · rw [hkey _ hsucc]
    exact hlt hsucc

section

variable {v : Volume} {d : ImageDisk} (hd : d.Reads) (stack : Buf)

include hd

theorem extentTree_answers (htree : ExtentTree (d.block v.partLoc) depth n xs) (key : Nat)
    (hdepth : k + depth ≤ 31) :
    Prog.Yields (.loop (extentTreeRound d.toDisk stack v key) (n, k)) (Answers xs key) := by
  induction htree generalizing k with
  | @leaf n depth hn hnode hleaf hstride hsorted =>
    apply Prog.Yields.loop_unfold
    rw [extentTreeRound, if_pos ⟨hn, by dsimp only; omega⟩]
    apply Prog.Yields.bind ((hd.hasBlocks v.partLoc).reads rfl stack)
    rintro ⟨ret, b⟩ ⟨rfl, hb⟩
    apply Prog.Yields.pure
    obtain ⟨r, hdescend, hanswer⟩ := descend_leaf hb hnode hleaf hstride hsorted key k
    rw [hdescend]
    exact hanswer
  | @interior n depth subs hn hnode hint hsorted hchild hlow hhigh ih =>
    apply Prog.Yields.loop_unfold
    rw [extentTreeRound, if_pos ⟨hn, by dsimp only; omega⟩]
    apply Prog.Yields.bind ((hd.hasBlocks v.partLoc).reads rfl stack)
    rintro ⟨ret, b⟩ ⟨rfl, hb⟩
    apply Prog.Yields.pure
    by_cases hpos : be16 (d.block v.partLoc n) 12 = 0
    · have hbad := (not_nodeOk (hnode.congr hb)).2 ((count_congr hb).trans hpos)
      rw [descend, if_neg (not_not.2 rfl), if_pos hbad, hpos]
      exact .nil key
    · obtain ⟨j, hj, hdescend, honly⟩ := descend_interior hb hnode hint hpos hsorted
        (fun i hi => (hchild i hi).ne_zero) key k
      rw [hdescend]
      exact (ih j hj (by omega)).mono fun r => .of_child hj honly hlow hhigh

end

/-- A search of the extent tree finds the extent with the key, and a file whose extents cover its
size is read from its first byte to its last one. -/
theorem sfsLookupExtent_exact (v : Volume) (d : ImageDisk) (stack : Buf) (xs : List Extent)
    (hd : d.Reads) (htree : ExtentTree (d.block v.partLoc) 31 v.extentBnRoot xs) :
    (∀ key, Prog.Yields (sfsLookupExtent d.toDisk stack v key) fun r =>
      (∀ x ∈ xs, x.first = key → r = .ok x) ∧
        ((∀ x ∈ xs, x.first ≠ key) → r = .error .eNoFile)) ∧
    ∀ first chain last byteSize out,
      FileChain (fun key x => x ∈ xs ∧ x.first = key) first chain last →
      chain.length ≤ 65536 → byteSize ≤ (blockList chain).length * bsize →
      Prog.Yields (sfsReadFileContents d.toDisk stack v first byteSize out)
        (· = (.noError, ⟨byteSize, out.copy 0 (concat (d.block v.partLoc) (blockList chain)) 0
          byteSize⟩)) := by
  have hlookup (key : Nat) : Prog.Yields (sfsLookupExtent d.toDisk stack v key) (Answers xs key) :=
    extentTree_answers hd stack htree key (Nat.le_refl 31)
  constructor
  · exact hlookup
  · have hat (key : Nat) (x : Extent) (hx : x ∈ xs ∧ x.first = key) :
        Prog.Yields (sfsLookupExtent d.toDisk stack v key) (· = .ok x) :=
      (hlookup key).mono fun r hr => hr.1 x hx.1 hx.2
    intro first chain last byteSize out hchain hlen hsize
    exact readFile_fills hd stack out hat hchain hlen hsize

/-- A volume with a file in block 5. Its extent tree has the root 3 and the leaf 4. -/
def twoLevelDisk : ImageDisk :=
  Disk.ofImage (written [be 1536 4 blockidBndc, be 1548 2 1, be 1551 1 8, be 1552 4 5,
    be 1556 4 4, be 2048 4 blockidBndc, be 2060 2 1, be 2062 1 1, be 2063 1 14, be 2064 4 5,
    be 2076 2 1, slice 2560 [0x68, 0x69]])

def twoLevel : Volume := ⟨0, 0, false, 100, 2, 0, [], 3⟩

theorem twoLevel_extent : leafExtent (twoLevelDisk.block 0 4) 0 = ⟨5, 1, 0⟩ := by
  have hkey : entryKey (twoLevelDisk.block 0 4) 0 = 5 := by decide +kernel
  have hblocks : be16 (twoLevelDisk.block 0 4) (bnode (twoLevelDisk.block 0 4) 0 + 12) = 1 := by
    decide +kernel
  have hnext : be32 (twoLevelDisk.block 0 4) (bnode (twoLevelDisk.block 0 4) 0 + 4) = 0 := by
    decide +kernel
  rw [leafExtent, hkey, hblocks, hnext]

theorem twoLevel_tree : ExtentTree (twoLevelDisk.block 0) 31 3 [⟨5, 1, 0⟩] := by
  have hcount3 : be16 (twoLevelDisk.block 0 3) 12 = 1 := by decide +kernel
  have hcount4 : be16 (twoLevelDisk.block 0 4) 12 = 1 := by decide +kernel
  have hkey : entryKey (twoLevelDisk.block 0 3) 0 = 5 := by decide +kernel
  have hdown : entryChild (twoLevelDisk.block 0 3) 0 = 4 := by decide +kernel
  have hleaf : ExtentTree (twoLevelDisk.block 0) 30 4 [⟨5, 1, 0⟩] := by
    have hnode : Node (twoLevelDisk.block 0 4) :=
      ⟨by decide +kernel, by decide +kernel, by decide +kernel, by decide +kernel⟩
    have hleaf : ExtentTree (twoLevelDisk.block 0) 30 4 _ :=
      .leaf (by decide) hnode (by decide +kernel) (by decide +kernel) fun i j hij hj => by omega
    rw [hcount4] at hleaf
    rwa [← twoLevel_extent]
  have hnode : Node (twoLevelDisk.block 0 3) :=
    ⟨by decide +kernel, by decide +kernel, by decide +kernel, by decide +kernel⟩
  have htree : ExtentTree (twoLevelDisk.block 0) 31 3
      ((List.range (be16 (twoLevelDisk.block 0 3) 12)).flatMap fun _ => [⟨5, 1, 0⟩]) := by
    refine .interior (by decide) hnode (by decide +kernel) (fun i j hij hj => ?_) (fun i hi => ?_)
      (fun i hi x hx => ?_) fun i hi => by omega
    · obtain rfl : i = j := by omega
      exact Nat.le_refl _
    · obtain rfl : i = 0 := by omega
      rw [hdown]
      exact hleaf
    · obtain rfl : i = 0 := by omega
      rw [List.mem_singleton.1 hx, hkey]
  rwa [hcount3] at htree

theorem sfsLookupExtent_exact_twoLevel :
    Prog.Yields (sfsLookupExtent twoLevelDisk.toDisk (fun _ => 0) twoLevel 5)
      (· = .ok ⟨5, 1, 0⟩) ∧
    Prog.Yields (sfsReadFileContents twoLevelDisk.toDisk (fun _ => 0) twoLevel 5 2 fun _ => 0)
      (· = (.noError, ⟨2, Buf.copy (fun _ => 0) 0 (concat (twoLevelDisk.block 0) [5]) 0 2⟩)) := by
  obtain ⟨hlookup, hread⟩ := sfsLookupExtent_exact twoLevel twoLevelDisk (fun _ => 0) _
    (ofImage_reads _) twoLevel_tree
  constructor
  · exact (hlookup 5).mono fun r hr => hr.1 _ List.mem_cons_self rfl
  · exact hread 5 [⟨5, 1, 0⟩] 0 2 (fun _ => 0)
      (.cons (by decide) ⟨List.mem_cons_self, rfl⟩ Nat.one_ne_zero .nil) (by decide) (by decide)

end Sfs

end Pegasos2.Fs
