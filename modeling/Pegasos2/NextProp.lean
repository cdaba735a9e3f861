import Pegasos2.ClientInterface
import Pegasos2.PropertyTable

namespace Pegasos2.ClientInterface
set_option autoImplicit true

/-- The memory that the client and the firmware share. -/
abbrev Memory := Cell → UInt8

/-- The string at an address, up to its NUL, or `none` if there is no NUL in the bytes looked
at. -/
def cstring (mem : Memory) : (bytes : Nat) → Cell → Option (List UInt8)
  | 0, _ => none
  | n + 1, p => if mem p = 0 then some [] else (cstring mem n (p + 1)).map (mem p :: ·)

/-- The string at an address. Without a NUL anywhere `strlen` does not end. -/
def stringAt (mem : Memory) (p : Cell) : Option (List UInt8) := cstring mem (2 ^ 32) p

/-- Stores of consecutive bytes. -/
def storeBytes (mem : Memory) (p : Cell) : List UInt8 → Memory
  | [] => mem
  | c :: cs => storeBytes (Function.update mem p c) (p + 1) cs

/-- The property tables that the handler reaches: `props` of the package at an address and of
`g_e->root`, `none` for a NULL pointer. -/
structure Firmware where
  props : Cell → Option Table
  rootProps : Option Table

/-- The table that a phandle gives. -/
def Firmware.propsOf (f : Firmware) (phandle : Cell) : Option Table :=
  match (if phandle = 0 then none else f.props phandle) with
  | some t => some t
  | none => f.rootProps

/-- The entry behind the previous property, or the first one. -/
def nextEntry (find : Table → List UInt8 → Link) (mem : Memory) (t : Table) (prev : Cell) :
    Option Link :=
  if prev = 0 ∨ mem prev = 0 then some t.list
  else (stringAt mem prev).map fun name => (find t name).tail

/-- The name of the entry goes to the buffer, and its length is the result. -/
def giveName (mem : Memory) (buf : Cell) : Link → Memory × Cell
  | [] => (mem, -1)
  | e :: _ =>
    match e.name with
    | none => (mem, -1)
    | some name =>
      let name := (pstring name).take 31
      (if buf ≠ 0 then storeBytes mem buf (name ++ [0]) else mem, .ofNat 32 name.length)

/-- The `nextprop` of the handler, with `find` for `find_table`: the memory behind it and the
result, unless the previous name does not end. -/
def nextprop (find : Table → List UInt8 → Link) (f : Firmware) (mem : Memory) (c : Call) :
    Option (Memory × Cell) :=
  match f.propsOf (c.args.getD 0 0) with
  | none => some (mem, -1)
  | some t => (nextEntry find mem t (c.args.getD 1 0)).map (giveName mem (c.args.getD 2 0))

/-- The builds of the handler. The traced one (`CI_TRACE_LIMITED`) looks at the characters of the
service name that it can print. -/
inductive Build where
  | plain
  | traced

def printable (c : Char) : Bool := 0x20 ≤ c.toNat && c.toNat < 0x7F

/-- The name that the traced build takes for the service, whose string is at `svc`. -/
def tracedName (svc : Cell) (service : List Char) : List Char :=
  if (svc.toNat < 0x10000000 ∨ 0xF0000000 ≤ svc.toNat) ∧ svc ≠ 0 then
    (service.takeWhile printable).take 23
  else "<unmapped>".toList

def Build.intercepts (b : Build) (svc : Cell) (c : Call) : Bool :=
  match b with
  | .plain => isNextprop c
  | .traced => startsWith "nextpr" (tracedName svc (c.service.getD [])) && c.args.length == 3 &&
      c.nrets == 1

/-- What the calls share: the memory and `g_last_ihandle`. -/
structure State where
  mem : Memory
  last : Cell

/-- `ci_dispatch_body`, with the firmware's other services. -/
def ciDispatchBody (b : Build) (find : Table → List UInt8 → Link) (f : Firmware)
    (services : Memory → Call → Memory × Reply) (s : State) (svc : Cell) (c : Call) :
    Option (State × Event) :=
  let (last, seen) := fixupIn s.last c
  (if b.intercepts svc seen then
    (nextprop find f s.mem seen).map fun r => (r.1, Reply.mk 0 fun _ => r.2)
  else some (services s.mem seen)).map fun r => (⟨r.1, trackOpen last seen r.2⟩, ⟨c, seen, r.2⟩)

/-- The services as one call finds them. -/
def hostAt (find : Table → List UInt8 → Link) (f : Firmware)
    (services : Memory → Call → Memory × Reply) (mem : Memory) : Host where
  clientInterface c := (services mem c).2
  nextprop c := ((nextprop find f mem c).map Prod.snd).getD 0

/-- The untraced handler is the dispatch whose handles are followed over a run. -/
theorem ciDispatchBody_plain
    (h : ciDispatchBody .plain find f services s svc c = some (s', e)) :
    ciDispatch (hostAt find f services s.mem) s.last c = (s'.last, e) := by
  rw [ciDispatchBody] at h
  rw [ciDispatch]
  by_cases hnext : isNextprop (fixupIn s.last c).2 = true
  · have hplain : Build.plain.intercepts svc (fixupIn s.last c).2 = true := hnext
    simp only [if_pos hplain, Option.map_map, Option.map_eq_some_iff] at h
    obtain ⟨r, hr, heq⟩ := h
    obtain ⟨rfl, rfl⟩ := Prod.mk.inj heq
    simp only [if_pos hnext, hostAt, hr]
    rfl
  · have hplain : ¬ Build.plain.intercepts svc (fixupIn s.last c).2 = true := hnext
    simp only [if_neg hplain, Option.map_some] at h
    obtain ⟨rfl, rfl⟩ := Prod.mk.inj (Option.some.inj h)
    simp only [if_neg hnext]
    rfl

theorem startsWith_trans (hname : startsWith start name = true) (hpre : name <+: service) :
    startsWith start service = true :=
  List.isPrefixOf_iff_prefix.2 ((List.isPrefixOf_iff_prefix.1 hname).trans hpre)

theorem Build.isNextprop_of_intercepts {b : Build} (h : b.intercepts svc c = true) :
    isNextprop c = true := by
  cases b with
  | plain => exact h
  | traced =>
    simp only [intercepts, Bool.and_eq_true] at h
    obtain ⟨⟨hname, hargs⟩, hrets⟩ := h
    rw [isNextprop, Bool.and_eq_true, Bool.and_eq_true]
    refine ⟨⟨?_, hargs⟩, hrets⟩
    rw [tracedName] at hname
    split at hname
    · exact startsWith_trans hname
        ((List.take_prefix 23 _).trans (List.takeWhile_prefix printable))
    · exact absurd hname (by decide)

theorem service_nextprop (h : isNextprop c = true) :
    ∀ name, c.service = some name →
      ∃ rest, name = 'n' :: 'e' :: 'x' :: 't' :: 'p' :: 'r' :: rest := by
  intro name hservice
  rw [isNextprop, Bool.and_eq_true, Bool.and_eq_true, hservice] at h
  obtain ⟨rest, hrest⟩ := List.isPrefixOf_iff_prefix.1 h.1.1
  exact ⟨rest, hrest.symm⟩

theorem fixupIn_nextprop (h : isNextprop c = true) : fixupIn last c = (last, c) := by
  have hslot : c.slot = none := by
    rw [Call.slot]
    cases hservice : c.service with
    | none => rfl
    | some name =>
      obtain ⟨rest, rfl⟩ := service_nextprop h name hservice
      rfl
  rw [fixupIn, hslot]

theorem trackOpen_nextprop (h : isNextprop c = true) : trackOpen last c r = last := by
  rw [trackOpen]
  cases hservice : c.service with
  | none => rfl
  | some name =>
    obtain ⟨rest, rfl⟩ := service_nextprop h name hservice
    simp only
    split
    · rfl
    · rfl

theorem ciDispatchBody_intercepted (h : b.intercepts svc c = true) :
    ciDispatchBody b find f services s svc c =
      (nextprop find f s.mem c).map fun r => (⟨r.1, s.last⟩, ⟨c, c, 0, fun _ => r.2⟩) := by
  have hnext := Build.isNextprop_of_intercepts h
  rw [ciDispatchBody, fixupIn_nextprop hnext]
  simp only [h, if_true, Option.map_map, trackOpen_nextprop hnext]
  rfl

theorem storeBytes_outside (h : ∀ i < cs.length, q ≠ p + .ofNat 32 i) :
    storeBytes mem p cs q = mem q := by
  induction cs generalizing mem p with
  | nil => rfl
  | cons c cs ih =>
    have hp : q ≠ p := by simpa using h 0 (Nat.succ_pos _)
    rw [storeBytes, ih, Function.update_of_ne hp]
    intro i hi heq
    refine h (i + 1) (Nat.succ_lt_succ hi) (heq.trans ?_)
    rw [BitVec.add_assoc, Nat.add_comm i 1, BitVec.ofNat_add]
    rfl

theorem cstring_storeBytes (hnul : 0 ∉ s) (hlen : s.length < n) (hfit : s.length < 2 ^ 32) :
    cstring (storeBytes mem p (s ++ [0])) n p = some s := by
  induction s generalizing mem p n with
  | nil =>
    obtain ⟨n, rfl⟩ := Nat.exists_eq_succ_of_ne_zero (Nat.ne_of_gt hlen)
    rw [cstring, List.nil_append, storeBytes, storeBytes, Function.update_self, if_pos rfl]
  | cons c s ih =>
    obtain ⟨n, rfl⟩ := Nat.exists_eq_succ_of_ne_zero (Nat.ne_zero_of_lt hlen)
    rw [List.length_cons] at hlen hfit
    have hhead : storeBytes mem p (c :: s ++ [0]) p = c := by
      rw [List.cons_append, storeBytes, storeBytes_outside, Function.update_self]
      intro i hi
      rw [List.length_append, List.length_singleton] at hi
      bv_omega
    have hc : c ≠ 0 := fun h => hnul (h ▸ List.mem_cons_self)
    rw [cstring, hhead, if_neg hc, List.cons_append, storeBytes,
      ih (fun h => hnul (List.mem_cons_of_mem c h)) (Nat.lt_of_succ_lt_succ hlen) (by omega)]
    rfl

theorem stringAt_nonempty (h : stringAt mem p = some name) (hname : name ≠ []) : mem p ≠ 0 := by
  intro hp
  have hempty : stringAt mem p = some [] := if_pos hp
  exact hname (Option.some.inj (h.symm.trans hempty))

/-- The name of an entry is one that a property can have. -/
structure Entry.Proper (e : Entry) : Prop where
  nonempty : e.chars ≠ []
  length_le : e.chars.length ≤ 31
  chars : 0 ∉ e.chars

theorem giveName_proper {e : Entry} (h : e.Proper) (hbuf : buf ≠ 0) :
    giveName mem buf (e :: link) =
      (storeBytes mem buf (e.chars ++ [0]), .ofNat 32 e.chars.length) := by
  cases hname : e.name with
  | none => exact absurd (by rw [Entry.chars, hname]) h.nonempty
  | some name =>
    have hchars : e.chars = pstring name := by rw [Entry.chars, hname]
    have htake : (pstring name).take 31 = e.chars := by
      rw [← hchars, List.take_of_length_le h.length_le]
    simp only [giveName, hname, htake, if_pos hbuf]

theorem nextEntry_name (hprev : prev ≠ 0) (h : stringAt mem prev = some name)
    (hname : name ≠ []) : nextEntry find mem t prev = some (find t name).tail := by
  have hcond : ¬ (prev = 0 ∨ mem prev = 0) := by
    rw [not_or]
    exact ⟨hprev, stringAt_nonempty h hname⟩
  rw [nextEntry, if_neg hcond, h, Option.map_some]

theorem nextprop_eq (hargs : c.args = [phandle, prev, buf]) (ht : f.propsOf phandle = some t) :
    nextprop find f mem c = (nextEntry find mem t prev).map (giveName mem buf) := by
  have hphandle : c.args.getD 0 0 = phandle := by rw [hargs]; rfl
  have hprev : c.args.getD 1 0 = prev := by rw [hargs]; rfl
  have hbuf : c.args.getD 2 0 = buf := by rw [hargs]; rfl
  rw [nextprop, hphandle, hprev, hbuf, ht]

section
variable (b : Build) (find : Table → List UInt8 → Link) (f : Firmware)
  (services : Memory → Call → Memory × Reply)

/-- A client asks a package for its properties: first with no previous name, then with the name
that the call before has left in its buffer. Where the client keeps that name, and what else it
does to the memory, is left open. -/
structure Enumeration (t : Table) where
  state : Nat → State
  svc : Nat → Cell
  call : Nat → Call
  phandle : Nat → Cell
  prev : Nat → Cell
  buf : Nat → Cell
  args : ∀ k, (call k).args = [phandle k, prev k, buf k]
  intercepted : ∀ k, b.intercepts (svc k) (call k) = true
  package : ∀ k, f.propsOf (phandle k) = some t
  buffer : ∀ k, buf k ≠ 0
  first : prev 0 = 0 ∨ (state 0).mem (prev 0) = 0
  again : ∀ k s e, ciDispatchBody b find f services (state k) (svc k) (call k) = some (s, e) →
    e.reply.rets 0 ≠ -1 →
      prev (k + 1) ≠ 0 ∧ stringAt (state (k + 1)).mem (prev (k + 1)) = stringAt s.mem (buf k)

variable {b find f services}

namespace Enumeration

/-- What the call `k` returns, with the string it leaves in its buffer. -/
def returns (E : Enumeration b find f services t) (k : Nat) :
    Option (Cell × Option (List UInt8)) :=
  (ciDispatchBody b find f services (E.state k) (E.svc k) (E.call k)).map fun r =>
    (r.2.reply.rets 0, stringAt r.1.mem (E.buf k))

variable (E : Enumeration b find f services t)

theorem call_eq (h : nextEntry find (E.state k).mem t (E.prev k) = some link) :
    ciDispatchBody b find f services (E.state k) (E.svc k) (E.call k) =
      let r := giveName (E.state k).mem (E.buf k) link
      some (⟨r.1, (E.state k).last⟩, ⟨E.call k, E.call k, 0, fun _ => r.2⟩) := by
  rw [ciDispatchBody_intercepted (E.intercepted k), nextprop_eq (E.args k) (E.package k), h]
  rfl

theorem length_ne (h : len ≤ 31) : BitVec.ofNat 32 len ≠ -1 := by
  intro heq
  have hnat := congrArg BitVec.toNat heq
  rw [BitVec.toNat_ofNat] at hnat
  have hneg : (-1 : BitVec 32).toNat = 2 ^ 32 - 1 := by decide
  omega

/-- A call that reaches an entry returns its name, and the next call gets to the entry behind. -/
theorem step (hfind : Finds (find t) same t.list) (hproper : ∀ e ∈ t.list, e.Proper)
    (hsuffix : e :: link <:+ t.list)
    (h : nextEntry find (E.state k).mem t (E.prev k) = some (e :: link)) :
    E.returns k = some (.ofNat 32 e.chars.length, some e.chars) ∧
      nextEntry find (E.state (k + 1)).mem t (E.prev (k + 1)) = some link := by
  have he := hproper e (hsuffix.subset List.mem_cons_self)
  have hcall := E.call_eq h
  rw [giveName_proper he (E.buffer k)] at hcall
  have hstring : stringAt (storeBytes (E.state k).mem (E.buf k) (e.chars ++ [0])) (E.buf k) =
      some e.chars :=
    cstring_storeBytes he.chars (by have := he.length_le; omega) (by have := he.length_le; omega)
  obtain ⟨hprev, hname⟩ := E.again k _ _ hcall (length_ne he.length_le)
  rw [hstring] at hname
  refine ⟨?_, ?_⟩
  · rw [returns, hcall]
    simp only [Option.map_some, hstring]
  · rw [nextEntry_name hprev hname he.nonempty, hfind.own e link hsuffix, List.tail_cons]

theorem reaches (hfind : Finds (find t) same t.list) (hproper : ∀ e ∈ t.list, e.Proper)
    (hk : k ≤ t.list.length) :
    nextEntry find (E.state k).mem t (E.prev k) = some (t.list.drop k) := by
  induction k with
  | zero => rw [nextEntry, if_pos E.first, List.drop_zero]
  | succ k ih =>
    have hreach := ih (Nat.le_of_succ_le hk)
    rw [List.drop_eq_getElem_cons hk] at hreach
    have hsuffix : t.list[k] :: t.list.drop (k + 1) <:+ t.list := by
      rw [← List.drop_eq_getElem_cons hk]
      exact List.drop_suffix k t.list
    exact (E.step hfind hproper hsuffix hreach).2

/-- The client that keeps the previous name in the buffer it passes, and does nothing else. -/
def aliased (b : Build) (find : Table → List UInt8 → Link) (f : Firmware)
    (services : Memory → Call → Memory × Reply) (c : Call) (svc : Cell) (s : State) : Nat → State
  | 0 => s
  | k + 1 =>
    let s := aliased b find f services c svc s k
    ((ciDispatchBody b find f services s svc c).map Prod.fst).getD s

/-- The client with one buffer enumerates a package if the buffer starts with a NUL. -/
def ofAliased {phandle buf : Cell} (c : Call) (svc : Cell) (s : State)
    (hargs : c.args = [phandle, buf, buf]) (hc : b.intercepts svc c = true)
    (ht : f.propsOf phandle = some t) (hbuf : buf ≠ 0)
    (hempty : s.mem buf = 0) : Enumeration b find f services t where
  state := aliased b find f services c svc s
  svc _ := svc
  call _ := c
  phandle _ := phandle
  prev _ := buf
  buf _ := buf
  args _ := hargs
  intercepted _ := hc
  package _ := ht
  buffer _ := hbuf
  first := .inr hempty
  again k s' e h _ := by
    refine ⟨hbuf, ?_⟩
    rw [aliased, h]
    rfl

end Enumeration

/-- The calls of an enumeration return the names of the package in the order of its table, each
once, and then -1. A call with a name that no property has returns -1. -/
theorem nextprop_enumerates {same : List UInt8 → List UInt8 → Prop} {t : Table}
    (hfind : Finds (find t) same t.list) (hproper : ∀ e ∈ t.list, e.Proper) :
    (∀ E : Enumeration b find f services t,
      (∀ k, (hk : k < t.list.length) →
        E.returns k = some (.ofNat 32 t.list[k].chars.length, some t.list[k].chars)) ∧
      (E.returns t.list.length).map Prod.fst = some (-1)) ∧
    (t.list.map Entry.chars).Nodup ∧
    ∀ s svc c phandle prev buf name, c.args = [phandle, prev, buf] →
      b.intercepts svc c = true → f.propsOf phandle = some t → prev ≠ 0 →
      stringAt s.mem prev = some name → name ≠ [] → (∀ e ∈ t.list, ¬ same e.chars name) →
        ciDispatchBody b find f services s svc c = some (s, ⟨c, c, 0, fun _ => -1⟩) := by
  refine ⟨fun E => ⟨fun k hk => ?_, ?_⟩, hfind.nodup, ?_⟩
  · have hreach := E.reaches hfind hproper (Nat.le_of_lt hk)
    rw [List.drop_eq_getElem_cons hk] at hreach
    have hsuffix : t.list[k] :: t.list.drop (k + 1) <:+ t.list := by
      rw [← List.drop_eq_getElem_cons hk]
      exact List.drop_suffix k t.list
    exact (E.step hfind hproper hsuffix hreach).1
  · have hreach := E.reaches hfind hproper (Nat.le_refl t.list.length)
    rw [List.drop_length] at hreach
    rw [Enumeration.returns, E.call_eq hreach]
    rfl
  · intro s svc c phandle prev buf name hargs hc ht hprev hname hne hother
    rw [ciDispatchBody_intercepted hc, nextprop_eq hargs ht, nextEntry_name hprev hname hne,
      hfind.other name hne hother]
    rfl

/-- An entry whose name has the given characters. -/
def entryOf (chars : List UInt8) : Entry :=
  ⟨some fun i => if i = 0 then .ofNat chars.length else chars.getD (i - 1) 0⟩

/-- The properties `name` and `reg`. -/
def smallTable : Table :=
  insertTable (insertTable ⟨[], none⟩ (entryOf [0x72, 0x65, 0x67]))
    (entryOf [0x6E, 0x61, 0x6D, 0x65])

theorem smallTable_sound : smallTable.Sound := by
  have hreg : (insertTable ⟨[], none⟩ (entryOf [0x72, 0x65, 0x67])).Sound :=
    insertTable_sound newTable_sound (by decide) nofun
  refine insertTable_sound hreg (by decide) ?_
  rintro e (_ | ⟨_, ⟨⟩⟩)
  decide

theorem smallTable_proper : ∀ e ∈ smallTable.list, e.Proper := by
  rintro e (_ | ⟨_, _ | ⟨_, ⟨⟩⟩⟩)
  · exact ⟨by decide, by decide, by decide⟩
  · exact ⟨by decide, by decide, by decide⟩

/-- A client with one buffer at 0x2000, that passes NULL for the phandle. -/
def smallClient : Enumeration .plain findTable ⟨fun _ => none, some smallTable⟩
    (fun mem _ => (mem, ⟨0, fun _ => 0⟩)) smallTable :=
  .ofAliased ⟨some "nextprop".toList, [0, 0x2000, 0x2000], 1⟩ 0x1000 ⟨fun _ => 0, 0⟩ rfl
    (by decide) rfl (by decide) rfl

theorem smallClient_enumerates :
    smallClient.returns 0 = some (4, some [0x6E, 0x61, 0x6D, 0x65]) ∧
      smallClient.returns 1 = some (3, some [0x72, 0x65, 0x67]) ∧
      (smallClient.returns 2).map Prod.fst = some (-1) := by
  obtain ⟨hnames, hend⟩ :=
    (nextprop_enumerates smallTable_sound.finds smallTable_proper).1 smallClient
  exact ⟨hnames 0 (by decide), hnames 1 (by decide), hend⟩

end

end Pegasos2.ClientInterface
