import Pegasos2.Iso9660

namespace Pegasos2.ClientInterface
open Fs (bytes)
open Fs.Iso (tolower compareStrs)
set_option autoImplicit true

/-- The characters of a string whose first byte is its length. -/
def pstring (b : Buf) : List UInt8 := bytes b 1 (b.nat 0)

/-- An entry of a property table. Its name may be NULL. -/
structure Entry where
  name : Option Buf

def Entry.chars (e : Entry) : List UInt8 :=
  match e.name with
  | none => []
  | some b => pstring b

/-- An entry of a table, with the entries behind it: what a pointer to it gives. NULL is the empty
list, and the rest of the list is what `link` points to. -/
abbrev Link := List Entry

/-- A table of entries. `hash` has the chains, if the table has any. -/
structure Table where
  list : Link
  hash : Option (Nat → List Link)

def tableHash : Nat := 97

/-- A character in the loop of `hash_str`. -/
def hashStep (h : BitVec 32) (c : UInt8) : BitVec 32 := (h <<< 2) + c.toBitVec.zeroExtend 32

def hashStr (s : List UInt8) : BitVec 32 :=
  let h := (s.map tolower).foldl hashStep (BitVec.ofNat 32 s.length)
  h ^^^ (h >>> 16)

/-- The chain of a name. -/
def chainOf (s : List UInt8) : Nat := (hashStr s).toNat % tableHash

/-- `compare_strs(ent->name, PSTR, name, len)` for a name that is not empty. -/
def Entry.hasName (e : Entry) (name : List UInt8) : Bool := compareStrs e.chars name

/-- The entry that a pointer points to has the name. -/
def isNamed (name : List UInt8) : Link → Bool
  | [] => false
  | e :: _ => e.hasName name

/-- The first entry with the name, from an entry on. -/
def scanList (name : List UInt8) : Link → Link
  | [] => []
  | e :: link => if e.hasName name then e :: link else scanList name link

/-- `find_table`, for a name whose length is known. -/
def findTable (t : Table) (name : List UInt8) : Link :=
  if name = [] then []
  else
    match t.hash with
    | some chains => ((chains (chainOf name)).find? (isNamed name)).getD []
    | none => scanList name t.list

/-- The entry at the head of the list enters its chain, unless its name is empty. -/
def enchain (chains : Nat → List Link) (e : Entry) (link : Link) : Nat → List Link :=
  if e.chars = [] then chains
  else Function.update chains (chainOf e.chars) ((e :: link) :: chains (chainOf e.chars))

/-- The loop of `hash_table`. -/
def chainAll (chains : Nat → List Link) : Link → Nat → List Link
  | [] => chains
  | e :: link => chainAll (enchain chains e link) link

/-- `hash_table`. -/
def hashTable (t : Table) : Table :=
  match t.hash with
  | some _ => t
  | none => { t with hash := some (chainAll (fun _ => []) t.list) }

def insertTable (t : Table) (e : Entry) : Table :=
  match t.hash with
  | some chains => ⟨e :: t.list, some (enchain chains e t.list)⟩
  | none =>
    if tableHash / 2 < t.list.length + 1 then hashTable ⟨e :: t.list, none⟩
    else ⟨e :: t.list, none⟩

/-- What the client interface relies on in `find_table`: it returns the entry with the given name,
and NULL where no entry has it. `same` says which names are one to the table. -/
structure Finds (find : List UInt8 → Link) (same : List UInt8 → List UInt8 → Prop) (list : Link) :
    Prop where
  own : ∀ e link, e :: link <:+ list → find e.chars = e :: link
  other : ∀ s, s ≠ [] → (∀ e ∈ list, ¬ same e.chars s) → find s = []

theorem Finds.nodup (h : Finds find same list) : (list.map Entry.chars).Nodup := by
  have hown := h.own
  clear h
  induction list with
  | nil => exact .nil
  | cons e link ih =>
    refine List.nodup_cons.2 ⟨fun hmem => ?_, ih fun e' link' h' => hown e' link' ?_⟩
    · obtain ⟨e', he', hchars⟩ := List.mem_map.1 hmem
      obtain ⟨before, after, rfl⟩ := List.append_of_mem he'
      have hfirst := hown e _ (List.suffix_refl _)
      have hagain := hown e' after ⟨e :: before, rfl⟩
      rw [hchars, hfirst] at hagain
      have hlen := congrArg List.length hagain
      simp only [List.length_cons, List.length_append] at hlen
      omega
    · exact h'.trans (List.suffix_cons e link)

/-- The table keeps its entries findable: each has a name, no two have one that the comparison
takes for the same, and each is in its chain. -/
structure Table.Sound (t : Table) : Prop where
  named : ∀ e ∈ t.list, e.chars ≠ []
  apart : t.list.Pairwise fun e e' => ¬ compareStrs e.chars e'.chars
  chained : ∀ chains, t.hash = some chains →
    ∀ n link, link ∈ chains n ↔ ∃ e rest, link = e :: rest ∧ link <:+ t.list ∧ chainOf e.chars = n

theorem compareStrs_iff : compareStrs a b = true ↔ a.map tolower = b.map tolower := by
  rw [compareStrs, Bool.and_eq_true, beq_iff_eq, beq_iff_eq]
  exact ⟨And.right, fun h => ⟨by simpa only [List.length_map] using congrArg List.length h, h⟩⟩

theorem compareStrs_self (a : List UInt8) : compareStrs a a = true := compareStrs_iff.2 rfl

theorem compareStrs_symm (h : compareStrs a b = true) : compareStrs b a = true :=
  compareStrs_iff.2 (compareStrs_iff.1 h).symm

variable {e e' : Entry} {list link link' : Link}

theorem scanList_found (happ : list.Pairwise fun e e' => ¬ compareStrs e.chars e'.chars)
    (h : e :: link <:+ list) : scanList e.chars list = e :: link := by
  induction list with
  | nil => exact absurd (List.suffix_nil.1 h) (List.cons_ne_nil _ _)
  | cons e' list ih =>
    rw [scanList]
    obtain heq | hsuffix := List.suffix_cons_iff.1 h
    · obtain ⟨rfl, rfl⟩ := List.cons.inj heq
      rw [Entry.hasName, if_pos (compareStrs_self _)]
    · have hne : ¬ compareStrs e'.chars e.chars :=
        List.rel_of_pairwise_cons happ (hsuffix.subset List.mem_cons_self)
      rw [Entry.hasName, if_neg hne]
      exact ih (List.Pairwise.of_cons happ) hsuffix

theorem scanList_none (h : ∀ e ∈ list, ¬ compareStrs e.chars s) : scanList s list = [] := by
  induction list with
  | nil => rfl
  | cons e list ih =>
    rw [scanList, Entry.hasName, if_neg (h e List.mem_cons_self)]
    exact ih fun e' he' => h e' (List.mem_cons_of_mem e he')

theorem suffix_unique (happ : list.Pairwise fun e e' => ¬ compareStrs e.chars e'.chars)
    (h : e :: link <:+ list) (h' : e' :: link' <:+ list)
    (hsame : compareStrs e'.chars e.chars = true) : e' :: link' = e :: link := by
  induction list with
  | nil => exact absurd (List.suffix_nil.1 h) (List.cons_ne_nil _ _)
  | cons e₀ list ih =>
    obtain heq | hsuffix := List.suffix_cons_iff.1 h
    · obtain heq' | hsuffix' := List.suffix_cons_iff.1 h'
      · exact heq'.trans heq.symm
      · obtain ⟨rfl, -⟩ := List.cons.inj heq
        exact absurd (compareStrs_symm hsame)
          (List.rel_of_pairwise_cons happ (hsuffix'.subset List.mem_cons_self))
    · obtain heq' | hsuffix' := List.suffix_cons_iff.1 h'
      · obtain ⟨rfl, -⟩ := List.cons.inj heq'
        exact absurd hsame
          (List.rel_of_pairwise_cons happ (hsuffix.subset List.mem_cons_self))
      · exact ih (List.Pairwise.of_cons happ) hsuffix hsuffix'

/-- `find_table` finds the entries of a sound table, by its chains or without. -/
theorem Table.Sound.finds {t : Table} (h : t.Sound) :
    Finds (findTable t) (fun a b => compareStrs a b = true) t.list where
  own e link hsuffix := by
    rw [findTable, if_neg (h.named e (hsuffix.subset List.mem_cons_self))]
    cases hhash : t.hash with
    | none => exact scanList_found h.apart hsuffix
    | some chains =>
      have hmem : e :: link ∈ chains (chainOf e.chars) :=
        (h.chained chains hhash _ _).2 ⟨e, link, rfl, hsuffix, rfl⟩
      have hnamed : isNamed e.chars (e :: link) = true := compareStrs_self e.chars
      simp only
      cases hfind : (chains (chainOf e.chars)).find? (isNamed e.chars) with
      | none => exact absurd hnamed (List.find?_eq_none.1 hfind _ hmem)
      | some found =>
        have hfound : isNamed e.chars found = true := List.find?_some hfind
        obtain ⟨e', link', rfl, hsuffix', -⟩ :=
          (h.chained chains hhash _ _).1 (List.mem_of_find?_eq_some hfind)
        exact suffix_unique h.apart hsuffix hsuffix' hfound
  other s hs hother := by
    rw [findTable, if_neg hs]
    cases hhash : t.hash with
    | none => exact scanList_none hother
    | some chains =>
      simp only
      cases hfind : (chains (chainOf s)).find? (isNamed s) with
      | none => rfl
      | some found =>
        have hfound : isNamed s found = true := List.find?_some hfind
        obtain ⟨e', link', rfl, hsuffix', -⟩ :=
          (h.chained chains hhash _ _).1 (List.mem_of_find?_eq_some hfind)
        exact absurd hfound (hother e' (hsuffix'.subset List.mem_cons_self))

theorem enchain_mem (hname : e.chars ≠ []) :
    l ∈ enchain chains e link n ↔ l ∈ chains n ∨ l = e :: link ∧ chainOf e.chars = n := by
  rw [enchain, if_neg hname]
  by_cases hn : chainOf e.chars = n
  · subst hn
    rw [Function.update_self, List.mem_cons, or_comm]
    exact or_congr Iff.rfl ⟨fun h => ⟨h, rfl⟩, And.left⟩
  · rw [Function.update_of_ne fun h => hn h.symm]
    exact ⟨.inl, fun h => h.resolve_right fun h => hn h.2⟩

theorem chainAll_mem (hnamed : ∀ e ∈ list, e.chars ≠ []) :
    l ∈ chainAll chains list n ↔
      l ∈ chains n ∨ ∃ e rest, l = e :: rest ∧ l <:+ list ∧ chainOf e.chars = n := by
  induction list generalizing chains with
  | nil =>
    refine ⟨.inl, fun h => h.resolve_right ?_⟩
    rintro ⟨e, rest, rfl, hsuffix, -⟩
    exact absurd (List.suffix_nil.1 hsuffix) (List.cons_ne_nil _ _)
  | cons e list ih =>
    rw [chainAll, ih fun e' he' => hnamed e' (List.mem_cons_of_mem e he'),
      enchain_mem (hnamed e List.mem_cons_self)]
    constructor
    · rintro ((h | ⟨rfl, hn⟩) | ⟨e', rest, rfl, hsuffix, hn⟩)
      · exact .inl h
      · exact .inr ⟨e, list, rfl, List.suffix_refl _, hn⟩
      · exact .inr ⟨e', rest, rfl, hsuffix.trans (List.suffix_cons e list), hn⟩
    · rintro (h | ⟨e', rest, rfl, hsuffix, hn⟩)
      · exact .inl (.inl h)
      · obtain heq | hsuffix := List.suffix_cons_iff.1 hsuffix
        · obtain ⟨rfl, rfl⟩ := List.cons.inj heq
          exact .inl (.inr ⟨rfl, hn⟩)
        · exact .inr ⟨e', rest, rfl, hsuffix, hn⟩

theorem hashTable_sound (h : t.Sound) : (hashTable t).Sound := by
  rw [hashTable]
  cases hhash : t.hash with
  | some chains =>
    simp only
    exact h
  | none =>
    refine ⟨h.named, h.apart, ?_⟩
    rintro chains ⟨⟩ n link
    rw [chainAll_mem h.named]
    exact or_iff_right (List.not_mem_nil)

theorem insertTable_sound {t : Table} (h : t.Sound) (hname : e.chars ≠ [])
    (hnew : ∀ e' ∈ t.list, ¬ compareStrs e.chars e'.chars) : (insertTable t e).Sound := by
  have hnamed : ∀ e' ∈ e :: t.list, e'.chars ≠ [] := by
    rintro e' (_ | ⟨_, he'⟩)
    · exact hname
    · exact h.named e' he'
  have hplain : Table.Sound ⟨e :: t.list, none⟩ :=
    ⟨hnamed, List.pairwise_cons.2 ⟨hnew, h.apart⟩, nofun⟩
  rw [insertTable]
  cases hhash : t.hash with
  | none =>
    simp only
    split
    · exact hashTable_sound hplain
    · exact hplain
  | some chains =>
    refine ⟨hnamed, hplain.apart, ?_⟩
    rintro chains' ⟨⟩ n link
    rw [enchain_mem hname, h.chained chains hhash]
    constructor
    · rintro (⟨e', rest, rfl, hsuffix, hn⟩ | ⟨rfl, hn⟩)
      · exact ⟨e', rest, rfl, hsuffix.trans (List.suffix_cons e t.list), hn⟩
      · exact ⟨e, t.list, rfl, List.suffix_refl _, hn⟩
    · rintro ⟨e', rest, rfl, hsuffix, hn⟩
      obtain heq | hsuffix := List.suffix_cons_iff.1 hsuffix
      · obtain ⟨rfl, rfl⟩ := List.cons.inj heq
        exact .inr ⟨rfl, hn⟩
      · exact .inl ⟨e', rest, rfl, hsuffix, hn⟩

theorem newTable_sound : Table.Sound ⟨[], none⟩ := ⟨nofun, .nil, nofun⟩

end Pegasos2.ClientInterface
