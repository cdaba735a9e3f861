import Pegasos2.AmigaSfs
import Pegasos2.VolumeBlocks

namespace Pegasos2.Fs
open Program
open PartitionPkg (Agree)
set_option autoImplicit true

namespace Sfs

theorem takeWhile_of_find?_none {hit : Object → Bool} {os : List Object} (h : os.find? hit = none) :
    os.takeWhile (fun o => !hit o) = os := by
  apply List.takeWhile_eq_self_iff.2
  intro o ho
  have hno := List.find?_eq_none.1 h o ho
  rw [Bool.not_eq_true] at hno
  rw [hno]
  rfl

theorem takeWhile_append_of_find? {hit : Object → Bool} {os : List Object}
    (h : os.find? hit = some o) (more : List Object) :
    (os ++ more).takeWhile (fun o => !hit o) = os.takeWhile fun o => !hit o := by
  induction os with
  | nil => cases h
  | cons o' os ih =>
    rw [List.cons_append, List.takeWhile_cons, List.takeWhile_cons]
    by_cases hhit : hit o' = true
    · rw [hhit]
      rfl
    · rw [List.find?_cons_of_neg hhit] at h
      rw [ih h]

/-- There is an object at `off`, inside of the container. -/
def ObjectOk (b : Buf) (off : Nat) : Prop :=
  off + 25 ≤ bsize ∧ be32 b (off + 4) ≠ 0 ∧ off + objectRecordSize b off (bsize - off) ≤ bsize

instance (b : Buf) (off : Nat) : Decidable (ObjectOk b off) := inferInstanceAs (Decidable (_ ∧ _))

/-- The objects from `off` on, at most `n` of them. -/
def objectsFrom (b : Buf) : Nat → Nat → List Object
  | 0, _ => []
  | n + 1, off =>
    if ObjectOk b off then
      object b off :: objectsFrom b n (off + objectRecordSize b off (bsize - off))
    else []

def objects (b : Buf) : List Object := objectsFrom b bsize 24

theorem objectRound_eq (hit : Object → Bool) (b : Buf) (s : Nat × List Object) :
    objectRound hit b s =
      if ObjectOk b s.1 then
        if hit (object b s.1) then .inr (s.2, some (object b s.1))
        else .inl (s.1 + objectRecordSize b s.1 (bsize - s.1), s.2 ++ [object b s.1])
      else .inr (s.2, none) := by
  rw [objectRound]
  by_cases hroom : s.1 + 25 ≤ bsize
  · have hpos := le_objectRecordSize (Nat.le_sub_of_add_le (Nat.add_comm _ 25 ▸ hroom)) b s.1
    rw [if_pos hroom]
    by_cases hnode : be32 b (s.1 + 4) = 0
    · rw [if_pos hnode, if_neg fun h => h.2.1 hnode]
    · by_cases hend : s.1 + objectRecordSize b s.1 (bsize - s.1) ≤ bsize
      · have hfits : ¬ (objectRecordSize b s.1 (bsize - s.1) = 0 ∨
            bsize < s.1 + objectRecordSize b s.1 (bsize - s.1)) := by omega
        rw [if_neg hnode, if_neg hfits, if_pos (show ObjectOk b s.1 from ⟨hroom, hnode, hend⟩)]
      · rw [if_neg hnode, if_pos (.inr (Nat.not_le.1 hend)), if_neg fun h => hend h.2.2]
  · rw [if_neg hroom, if_neg fun h => hroom h.1]

theorem ObjectOk.sub_le (h : ObjectOk b off) (hn : bsize - off ≤ n + 1) :
    bsize - (off + objectRecordSize b off (bsize - off)) ≤ n := by
  have hroom := h.1
  have hpos := le_objectRecordSize (Nat.le_sub_of_add_le (Nat.add_comm _ 25 ▸ hroom)) b off
  omega

theorem walkObjects_yields (hit : Object → Bool) (b : Buf) (hn : bsize - off ≤ n)
    (passed : List Object) :
    Prog.Yields (.loop (fun s => (pure (objectRound hit b s) : Io _)) (off, passed))
      (· = (passed ++ (objectsFrom b n off).takeWhile (fun o => !hit o),
        (objectsFrom b n off).find? hit)) := by
  induction n generalizing off passed with
  | zero =>
    apply Prog.Yields.loop_unfold
    apply Prog.Yields.pure
    have hnot : ¬ ObjectOk b off := by
      intro h
      have hroom := h.1
      omega
    rw [objectRound_eq, if_neg hnot]
    exact Prod.ext (List.append_nil passed).symm rfl
  | succ n ih =>
    apply Prog.Yields.loop_unfold
    apply Prog.Yields.pure
    rw [objectRound_eq, objectsFrom]
    dsimp only
    by_cases hok : ObjectOk b off
    · rw [if_pos hok, if_pos hok, List.takeWhile_cons, List.find?_cons]
      cases hhit : hit (object b off) with
      | true => exact Prod.ext (List.append_nil passed).symm rfl
      | false =>
        have hrest := ih (hok.sub_le hn) (passed ++ [object b off])
        rw [List.append_assoc, List.singleton_append] at hrest
        exact hrest
    · rw [if_neg hok, if_neg hok]
      exact Prod.ext (List.append_nil passed).symm rfl

section

variable {b c : Buf} (h : Agree bsize b c)

include h

theorem skipCstring_congr (hin : p + n ≤ bsize) : skipCstring b p n = skipCstring c p n := by
  induction n generalizing p with
  | zero => rfl
  | succ n ih =>
    rw [skipCstring, skipCstring, h p (by omega), ih (by omega)]

theorem cstringLen_congr (hin : p + n ≤ bsize) : cstringLen b p n = cstringLen c p n := by
  induction n generalizing p with
  | zero => rfl
  | succ n ih =>
    rw [cstringLen, cstringLen, h p (by omega), ih (by omega)]

theorem bytes_congr (hin : p + n ≤ bsize) : bytes b p n = bytes c p n := by
  rw [bytes, bytes]
  apply List.map_congr_left
  intro i hi
  have hlt := List.mem_range.1 hi
  exact h (p + i) (by omega)

theorem objectRecordSize_congr (hroom : off + 25 ≤ bsize) :
    objectRecordSize b off (bsize - off) = objectRecordSize c off (bsize - off) := by
  have hname : skipCstring b (off + 25) (bsize - off - 25) =
      skipCstring c (off + 25) (bsize - off - 25) := skipCstring_congr h (by omega)
  have hle := skipCstring_le c (off + 25) (bsize - off - 25)
  have hcomment := skipCstring_congr h (p := skipCstring c (off + 25) (bsize - off - 25))
    (n := off + 25 + (bsize - off - 25) - skipCstring c (off + 25) (bsize - off - 25)) (by omega)
  rw [objectRecordSize, objectRecordSize, stringsEnd, stringsEnd, hname, hcomment]

theorem object_congr (hroom : off + 25 ≤ bsize) : object b off = object c off := by
  have hdata : be32 b (off + 12) = be32 c (off + 12) := h.be32 (by omega)
  have hsize : be32 b (off + 16) = be32 c (off + 16) := h.be32 (by omega)
  have hbits : b.nat (off + 24) = c.nat (off + 24) := Agree.nat h (by omega)
  have hlen : cstringLen b (off + 25) (bsize - off - 25) =
      cstringLen c (off + 25) (bsize - off - 25) := cstringLen_congr h (by omega)
  have hle := cstringLen_le c (off + 25) (bsize - off - 25)
  have hname : bytes b (off + 25) (cstringLen c (off + 25) (bsize - off - 25)) =
      bytes c (off + 25) (cstringLen c (off + 25) (bsize - off - 25)) := bytes_congr h (by omega)
  rw [object, object, hdata, hsize, hbits, hlen, hname]

theorem objectOk_congr (off : Nat) : ObjectOk b off ↔ ObjectOk c off := by
  by_cases hroom : off + 25 ≤ bsize
  · have hnode : be32 b (off + 4) = be32 c (off + 4) := h.be32 (by omega)
    rw [ObjectOk, ObjectOk, hnode, objectRecordSize_congr h hroom]
  · constructor
    · exact fun hok => absurd hok.1 hroom
    · exact fun hok => absurd hok.1 hroom

theorem objectsFrom_congr (n off : Nat) : objectsFrom b n off = objectsFrom c n off := by
  induction n generalizing off with
  | zero => rfl
  | succ n ih =>
    rw [objectsFrom, objectsFrom]
    by_cases hok : ObjectOk c off
    · rw [if_pos ((objectOk_congr h off).2 hok), if_pos hok, object_congr h hok.1,
        objectRecordSize_congr h hok.1, ih]
    · rw [if_neg fun hok' => hok ((objectOk_congr h off).1 hok'), if_neg hok]

end

/-- The containers of a directory from block `n` on, at most `guard` of them, with their block
numbers. -/
def containers (block : Nat → Option Buf) : Nat → Nat → List (Nat × Buf)
  | 0, _ => []
  | guard + 1, n =>
    if n = 0 then []
    else
      match block n with
      | none => []
      | some b =>
        if be32 b 0 ≠ blockidObjc then [] else (n, b) :: containers block guard (be32 b 16)

/-- A container names its own block. -/
def Owns (c : Nat × Buf) : Bool := be32 c.2 8 == c.1

/-- The objects of containers. If they must name their own blocks, only of those in front of the
first one that does not. -/
def walked (own : Bool) (cs : List (Nat × Buf)) : List Object :=
  (if own then cs.takeWhile Owns else cs).flatMap fun c => objects c.2

theorem walked_nil (own : Bool) : walked own [] = [] := by cases own <;> rfl

theorem walked_cons (own : Bool) (c : Nat × Buf) (cs : List (Nat × Buf)) :
    walked own (c :: cs) =
      if own = true ∧ be32 c.2 8 ≠ c.1 then [] else objects c.2 ++ walked own cs := by
  cases own with
  | false => rfl
  | true =>
    rw [walked, walked, if_pos rfl, if_pos rfl, List.takeWhile_cons]
    by_cases hown : be32 c.2 8 = c.1
    · have howns : Owns c = true := beq_iff_eq.2 hown
      rw [if_pos howns, if_neg fun h => h.2 hown]
      rfl
    · have howns : ¬ Owns c = true := fun h => hown (beq_iff_eq.1 h)
      rw [if_neg howns, if_pos ⟨rfl, hown⟩]
      rfl

/-- The end of a walk over the objects `os`, behind those that have been passed before. Blocks that
cannot be read may give other errors. -/
def WalkEnd (block : Nat → Option Buf) (hit : Object → Bool) (passed os : List Object)
    (e : DirEnd) : Prop :=
  e.passed = passed ++ os.takeWhile (fun o => !hit o) ∧
    ((∃ o, os.find? hit = some o ∧ e.found = .ok o) ∨
      os.find? hit = none ∧ ∃ ret, e.found = .error ret ∧
        ((∀ n, block n ≠ none) → ret = .eNoFile))

theorem WalkEnd.nil (block : Nat → Option Buf) (hit : Object → Bool) (passed : List Object) :
    WalkEnd block hit passed [] ⟨passed, .error .eNoFile⟩ :=
  ⟨(List.append_nil passed).symm, .inr ⟨rfl, _, rfl, fun _ => rfl⟩⟩

theorem WalkEnd.unreadable (hn : block n = none) (passed : List Object) :
    WalkEnd block hit passed [] ⟨passed, .error ret⟩ :=
  ⟨(List.append_nil passed).symm, .inr ⟨rfl, ret, rfl, fun hall => absurd hn (hall n)⟩⟩

theorem WalkEnd.hit {os : List Object} {hit : Object → Bool} (hfind : os.find? hit = some o)
    (passed more : List Object) :
    WalkEnd block hit passed (os ++ more)
      ⟨passed ++ os.takeWhile (fun o => !hit o), .ok o⟩ := by
  constructor
  · rw [takeWhile_append_of_find? hfind]
  · left
    refine ⟨o, ?_, rfl⟩
    rw [List.find?_append, hfind]
    rfl

theorem WalkEnd.append {os : List Object} {hit : Object → Bool} (hnone : os.find? hit = none)
    (h : WalkEnd block hit (passed ++ os) more e) : WalkEnd block hit passed (os ++ more) e := by
  have hall := takeWhile_of_find?_none hnone
  obtain ⟨hpassed, hfound⟩ := h
  constructor
  · rw [hpassed, List.append_assoc, List.takeWhile_append, hall, if_pos rfl]
  · rw [List.find?_append, hnone, Option.none_or]
    exact hfound

section

variable {d : Disk} {block : Nat → Option Buf} {v : Volume} (hd : d.HasBlocks v.partLoc block)
  (stack : Buf)

include hd

theorem dirLoop_yields (own : Bool) (hit : Object → Bool) (hguard : g + k = 4096)
    (passed : List Object) :
    Prog.Yields (.loop (dirRound d stack v own hit) ⟨n, g, passed⟩)
      (WalkEnd block hit passed (walked own (containers block k n))) := by
  induction k generalizing n g passed with
  | zero =>
    apply Prog.Yields.loop_unfold
    rw [dirRound, containers, walked_nil]
    split_ifs with hend hlimit
    · exact Prog.Yields.pure (.nil block hit passed)
    · exact Prog.Yields.pure (.nil block hit passed)
    · exact absurd (Nat.lt_succ_of_le (Nat.le_of_eq hguard.symm)) hlimit
  | succ k ih =>
    apply Prog.Yields.loop_unfold
    rw [dirRound, containers]
    split_ifs with hend hlimit
    · rw [walked_nil]
      exact Prog.Yields.pure (.nil block hit passed)
    · dsimp only at hlimit
      omega
    · apply Prog.Yields.bind (hd n stack)
      rintro ⟨ret, b⟩ (⟨hret, c, hc, hagree⟩ | ⟨hret, hnone⟩)
      · dsimp only at hret hagree ⊢
        have hid : be32 b 0 = be32 c 0 := hagree.be32 (by decide)
        have hown : be32 b 8 = be32 c 8 := hagree.be32 (by decide)
        have hnext : be32 b 16 = be32 c 16 := hagree.be32 (by decide)
        rw [hc, dirBlock, if_neg (not_not.2 hret), hid, hown]
        dsimp only
        by_cases hkind : be32 c 0 ≠ blockidObjc
        · rw [if_pos hkind, if_pos hkind, walked_nil]
          exact Prog.Yields.pure (.nil block hit passed)
        · rw [if_neg hkind, if_neg hkind, walked_cons]
          split_ifs with hforeign
          · exact Prog.Yields.pure (.nil block hit passed)
          · have hwalk : Prog.Yields (walkObjects hit b passed)
                (· = (passed ++ (objectsFrom b bsize 24).takeWhile (fun o => !hit o),
                  (objectsFrom b bsize 24).find? hit)) :=
              walkObjects_yields hit b (Nat.sub_le _ _) passed
            rw [objectsFrom_congr hagree] at hwalk
            apply Prog.Yields.bind hwalk
            rintro _ rfl
            apply Prog.Yields.pure
            show Sum.elim _ _ (Dir.next _ b (passed ++ (objects c).takeWhile (fun o => !hit o),
              (objects c).find? hit))
            cases hfind : (objects c).find? hit with
            | some o => exact .hit hfind passed _
            | none =>
              rw [takeWhile_of_find?_none hfind]
              show Prog.Yields (.loop (dirRound d stack v own hit) ⟨be32 b 16, g + 1, _⟩) _
              rw [hnext]
              exact (ih (by omega) (passed ++ objects c)).mono fun e he => he.append hfind
      · dsimp only at hret ⊢
        rw [hnone, dirBlock, if_pos hret, walked_nil]
        exact Prog.Yields.pure (.unreadable hnone passed)

end

end Sfs

end Pegasos2.Fs
