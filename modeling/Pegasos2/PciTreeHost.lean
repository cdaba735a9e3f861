import Pegasos2.PciTreeWalk

namespace Pegasos2.Pci
set_option autoImplicit true

/-- A function of a bus, with the allocators when the walker comes to it. -/
structure Arrival where
  loc : Loc
  cfg : Config
  alloc : Alloc

/-- The functions on bus `b` itself, which the walker enters with the allocators `a`. -/
def Bus.arrivals : Nat → Nat → Bus → Alloc → List Arrival
  | _, _, nil, _ => []
  | b, n, cons dev fn c below rest, a =>
    let own := (Pci.allot ⟨BitVec.ofNat 8 b, dev, fn⟩ (seenBars c) a).2
    ⟨⟨BitVec.ofNat 8 b, dev, fn⟩, c, a⟩ ::
      if isBridge c then
        rest.arrivals b (n + 1 + below.bridges)
          (own.pad.padFrom (below.allot seenBars n (n + 1) own.pad).2)
      else rest.arrivals b n own

theorem Bus.arrivals_functions (X : Bus) (h : f ∈ X.arrivals b n a) :
    (f.loc, f.cfg) ∈ X.functions b n := by
  induction X generalizing n a with
  | nil => exact absurd h List.not_mem_nil
  | cons dev fn c below rest _ ih =>
    rw [arrivals] at h
    cases h with
    | head => exact List.mem_cons_self
    | tail _ h =>
      cases hbridge : isBridge c with
      | false =>
        rw [hbridge, if_neg Bool.false_ne_true] at h
        rw [functions_func hbridge]
        exact List.mem_cons_of_mem _ (ih h)
      | true =>
        rw [if_pos hbridge] at h
        rw [functions_bridge hbridge]
        exact List.mem_cons_of_mem _ (List.mem_append_right _ (ih h))

theorem opened_out (b dev fn : Nat) (c : Config) (s : Scan) :
    ∃ more, (opened b dev fn c s).out = s.out ++ more := by
  obtain ⟨more, hout⟩ := (entered_follows b dev fn c s).out
  exact ⟨_, (congrArg (· ++ [Line.recurse _]) hout).trans (List.append_assoc _ _ _)⟩

theorem closed_out (b dev fn : Nat) (c : Config) (s s' : Scan) :
    ∃ more, (closed b dev fn c s s').out = s'.out ++ more := ⟨_, rfl⟩

theorem Scans.grows (h : Scans lo cur b s X X' s') : ∃ more, s'.out = s.out ++ more := by
  induction h with
  | nil => exact ⟨[], (List.append_nil _).symm⟩
  | @func lo cur dev fn c b s rest rest' s' _ _ _ ih =>
    obtain ⟨more, hout⟩ := (entered_follows b dev fn c s).out
    obtain ⟨more', hout'⟩ := ih
    rw [Walk.scan_out, hout] at hout'
    exact ⟨more ++ more', hout'.trans (List.append_assoc _ _ _)⟩
  | @bridge lo cur dev fn c b s below below' s₁ rest rest' s' _ _ _ _ _ _ ihb ihr =>
    obtain ⟨more, hout⟩ := opened_out b dev fn c s
    obtain ⟨more₁, hout₁⟩ := ihb
    obtain ⟨more₂, hout₂⟩ := closed_out b dev fn c s s₁
    obtain ⟨more₃, hout₃⟩ := ihr
    rw [Walk.scan_out, hout] at hout₁
    rw [Walk.scan_out, hout₂, hout₁, List.append_assoc, List.append_assoc,
      List.append_assoc] at hout₃
    exact ⟨_, hout₃⟩

theorem grown_ranges {out out' : List Line} (hout : ∃ more, out' = out ++ more)
    (hranges : ranges out' = ranges out ++ rs) :
    ∃ l, assignments out' = assignments out ++ l ∧ l.map Assignment.range = rs := by
  obtain ⟨more, rfl⟩ := hout
  refine ⟨assignments more, assignments_append _ _, ?_⟩
  rw [ranges_append, List.append_cancel_left_eq] at hranges
  rw [← hranges, ranges_eq_map]

theorem allot_locs (loc : Loc) (bars : List Bar) (a : Alloc) (hr : r ∈ (allot loc bars a).1) :
    r.loc = loc := by
  have hmem : (r.loc, r.bar) ∈ bars.map fun bar => (loc, bar) := by
    rw [← Pci.map_allot loc bars a]
    exact List.mem_map_of_mem hr
  obtain ⟨bar, -, heq⟩ := List.mem_map.1 hmem
  exact (congrArg Prod.fst heq).symm

theorem Bus.allot_locs (X : Bus) (b n : Nat) (a : Alloc) (hr : r ∈ (X.allot seenBars b n a).1) :
    r.loc ∈ (X.functions b n).map Prod.fst := by
  have hmem : (r.loc, r.bar) ∈ (X.functions b n).flatMap
      fun f => (seenBars f.2).map fun bar => (f.1, bar) := by
    rw [← Bus.map_allot X seenBars b n a]
    exact List.mem_map_of_mem hr
  obtain ⟨f, hf, hbar⟩ := List.mem_flatMap.1 hmem
  obtain ⟨bar, -, heq⟩ := List.mem_map.1 hbar
  exact List.mem_map.2 ⟨f, hf, congrArg Prod.fst heq⟩

/-- The lines that a scan adds to the report are about the functions of the bus. -/
theorem Scans.reported (h : Scans lo cur b s X X' s')
    (hregs : ∀ f ∈ X.functions b s.next, PlainRegs f.2) :
    ∃ l, assignments s'.out = assignments s.out ++ l ∧
      ∀ x ∈ l, x.loc ∈ (X.functions b s.next).map Prod.fst := by
  obtain ⟨l, hl, hmap⟩ := grown_ranges h.grows (h.allot_eq hregs).1
  refine ⟨l, hl, fun x hx => X.allot_locs b s.next s.alloc (r := x.range) ?_⟩
  rw [← hmap]
  exact List.mem_map_of_mem hx

theorem Scans.read_type0 (h : Scans lo cur b s X X' s') (hpos : 8 * dev + fn < lo) (k : Nat) :
    X'.read dev fn k .type0 = BitVec.allOnes 32 := by
  induction h with
  | nil => rfl
  | func hp _ _ ih =>
    have hle := hp.pos
    have hfn := hp.fn_lt
    rw [Bus.read, if_neg (by omega), ih (by omega), BitVec.and_self]
  | bridge hp _ _ _ _ _ _ ih =>
    have hle := hp.pos
    have hfn := hp.fn_lt
    rw [Bus.read, if_neg (by omega), ih (by omega), BitVec.and_self]

theorem Scans.write_type0 (h : Scans lo cur b s X X' s') (hpos : 8 * dev + fn < lo) (k : Nat)
    (v : Word) : X'.write dev fn k v .type0 = X' := by
  induction h with
  | nil => rfl
  | func hp _ _ ih =>
    have hle := hp.pos
    have hfn := hp.fn_lt
    rw [Bus.write, if_neg (by omega), ih (by omega)]
  | bridge hp _ _ _ _ _ _ ih =>
    have hle := hp.pos
    have hfn := hp.fn_lt
    rw [Bus.write, if_neg (by omega), ih (by omega)]

/-- The function `f` at `dev.fn` was scanned from state `s₀`, and `fill` puts its registers where
the scan from `s` to `s'` has left them. -/
structure Reached (lo b : Nat) (s : Scan) (X' : Bus) (s' : Scan) (f : Arrival) (dev fn : Nat)
    (s₀ : Scan) (fill : Config → Bus) : Prop where
  loc : f.loc = ⟨BitVec.ofNat 8 b, dev, fn⟩
  pos : lo ≤ 8 * dev + fn
  dev_lt : dev < 32
  fn_lt : fn < 8
  vendor : vendorId f.cfg ≠ 0xFFFF#16
  alloc : s₀.alloc = f.alloc
  bus : X' = fill (entered b dev fn f.cfg s₀).cfg
  read : ∀ c k, (fill c).read dev fn k .type0 = (c k).val
  write : ∀ c k v, (fill c).write dev fn k v .type0 = fill (c.write k v)
  before : ∃ l, assignments s₀.out = assignments s.out ++ l ∧ ∀ x ∈ l, x.loc ≠ f.loc
  after : ∃ l, assignments s'.out = assignments (entered b dev fn f.cfg s₀).out ++ l ∧
    ∀ x ∈ l, x.loc ≠ f.loc

theorem Reached.behind {fill : Config → Bus} (h : Reached lo' b s₁ X' s' f dev fn s₀ fill)
    (hlo : 8 * d + e < lo') (hle : lo ≤ 8 * d + e)
    (hout : ∃ l, assignments s₁.out = assignments s.out ++ l ∧ ∀ x ∈ l, x.loc ≠ f.loc) :
    Reached lo b s (.cons d e c below X') s' f dev fn s₀ fun c' => .cons d e c below (fill c') where
  loc := h.loc
  pos := by have hpos := h.pos; omega
  dev_lt := h.dev_lt
  fn_lt := h.fn_lt
  vendor := h.vendor
  alloc := h.alloc
  bus := by rw [h.bus]
  read c' k := by
    have hpos := h.pos
    rw [Bus.read, if_neg (by omega), h.read, BitVec.allOnes_and]
  write c' k v := by
    have hpos := h.pos
    rw [Bus.write, if_neg (by omega), h.write]
  before := by
    obtain ⟨l, hl, hne⟩ := hout
    obtain ⟨l', hl', hne'⟩ := h.before
    refine ⟨l ++ l', by rw [hl', hl, List.append_assoc], fun x hx => ?_⟩
    exact (List.mem_append.1 hx).elim (hne x) (hne' x)
  after := h.after

theorem Scans.reached (h : Scans lo cur b s X X' s')
    (hregs : ∀ f ∈ X.functions b s.next, PlainRegs f.2)
    (hnd : ((X.functions b s.next).map Prod.fst).Nodup)
    (hf : f ∈ X.arrivals b s.next s.alloc) (hc : isBridge f.cfg = false) :
    ∃ dev fn s₀ fill, Reached lo b s X' s' f dev fn s₀ fill := by
  induction h with
  | nil => exact absurd hf List.not_mem_nil
  | @func lo cur dev fn c b s rest rest' s' hplace hbridge hrest ih =>
    rw [Bus.functions_func hbridge] at hregs hnd
    rw [List.map_cons, List.nodup_cons] at hnd
    obtain ⟨hranges, halloc⟩ := entered_assigned b dev fn c s (hregs _ List.mem_cons_self)
    have hlater : ∀ f ∈ rest.functions b ((entered b dev fn c s).scan s.next).next,
        PlainRegs f.2 := by
      rw [Walk.scan_next]
      exact fun f hf => hregs f (List.mem_cons_of_mem _ hf)
    have hreported := hrest.reported hlater
    rw [Walk.scan_next, Walk.scan_alloc, Walk.scan_out] at *
    rw [Bus.arrivals, hbridge, if_neg Bool.false_ne_true] at hf
    cases hf with
    | head =>
      refine ⟨dev, fn, s, fun c => .cons dev fn c .nil rest', rfl, hplace.pos, hplace.dev_lt,
        hplace.fn_lt, hplace.vendor, rfl, rfl, fun c k => ?_, fun c k v => ?_,
        ⟨[], (List.append_nil _).symm, fun x hx => absurd hx List.not_mem_nil⟩, ?_⟩
      · rw [Bus.read, if_pos ⟨rfl, rfl⟩, hrest.read_type0 (Nat.lt_succ_self _),
          BitVec.and_allOnes]
      · rw [Bus.write, if_pos ⟨rfl, rfl⟩, hrest.write_type0 (Nat.lt_succ_self _)]
      · obtain ⟨l, hl, hlocs⟩ := hreported
        refine ⟨l, hl, fun x hx he => hnd.1 ?_⟩
        rw [← show x.loc = ⟨BitVec.ofNat 8 b, dev, fn⟩ from he]
        exact hlocs x hx
    | tail _ hf =>
      rw [halloc] at ih
      obtain ⟨d, e, s₀, fill, hreach⟩ := ih hlater hnd.2 hf
      have hmem : f.loc ∈ (rest.functions b s.next).map Prod.fst :=
        List.mem_map.2 ⟨_, Bus.arrivals_functions rest hf, rfl⟩
      refine ⟨d, e, s₀, _, hreach.behind (Nat.lt_succ_self _) hplace.pos ?_⟩
      obtain ⟨l, hl, hmap⟩ := grown_ranges (entered_follows b dev fn c s).out hranges
      refine ⟨l, hl, fun x hx he => hnd.1 ?_⟩
      have hloc : x.loc = ⟨BitVec.ofNat 8 b, dev, fn⟩ :=
        allot_locs _ _ _ (hmap ▸ List.mem_map_of_mem hx : x.range ∈ _)
      rw [← hloc, he]
      exact hmem
  | @bridge lo cur dev fn c b s below below' s₁ rest rest' s' hplace hbridge hreset hle hbelow
      hrest ihb ihr =>
    rw [Bus.functions_bridge hbridge] at hregs hnd
    rw [List.map_cons, List.nodup_cons, List.map_append] at hnd
    obtain ⟨hown, hnd⟩ := hnd
    obtain ⟨-, hrestnd, hdisjoint⟩ := List.nodup_append.1 hnd
    have hnext := hbelow.next_eq
    rw [Walk.scan_next] at hnext
    obtain ⟨hranges, halloc⟩ := entered_assigned b dev fn c s (hregs _ List.mem_cons_self)
    have hinner := hbelow.allot_eq (by
      rw [Walk.scan_next]
      exact fun f hf => hregs f (List.mem_cons_of_mem _ (List.mem_append_left _ hf)))
    rw [Walk.scan_next, Walk.scan_alloc, Walk.scan_out, opened_ranges, opened_alloc, hranges,
      halloc] at hinner
    have hlater : ∀ f ∈ rest.functions b ((closed b dev fn c s s₁).scan s₁.next).next,
        PlainRegs f.2 := by
      rw [Walk.scan_next, hnext]
      exact fun f hf => hregs f (List.mem_cons_of_mem _ (List.mem_append_right _ hf))
    rw [Bus.arrivals, if_pos hbridge] at hf
    cases hf with
    | head => exact absurd hbridge (by rw [hc]; exact Bool.false_ne_true)
    | tail _ hf =>
      rw [Walk.scan_next, Walk.scan_alloc, closed_alloc, opened_alloc, halloc, hinner.2,
        hnext] at ihr
      rw [Walk.scan_next, hnext] at hlater
      obtain ⟨d, e, s₀, fill, hreach⟩ := ihr hlater hrestnd hf
      have hmem : f.loc ∈ (rest.functions b (s.next + 1 + below.bridges)).map Prod.fst :=
        List.mem_map.2 ⟨_, Bus.arrivals_functions rest hf, rfl⟩
      refine ⟨d, e, s₀, _, hreach.behind (Nat.lt_succ_self _) hplace.pos ?_⟩
      obtain ⟨more, hout⟩ := opened_out b dev fn c s
      obtain ⟨more₁, hout₁⟩ := hbelow.grows
      obtain ⟨more₂, hout₂⟩ := closed_out b dev fn c s s₁
      rw [Walk.scan_out, hout] at hout₁
      rw [hout₁, List.append_assoc, List.append_assoc] at hout₂
      rw [Walk.scan_out]
      obtain ⟨l, hl, hmap⟩ := grown_ranges ⟨_, hout₂⟩
        ((closed_ranges b dev fn c s s₁).trans (hinner.1.trans (List.append_assoc _ _ _)))
      refine ⟨l, hl, fun x hx he => ?_⟩
      have hrange := List.mem_append.1 (hmap ▸ List.mem_map_of_mem hx : x.range ∈ _)
      obtain hrange | hrange := hrange
      · have hloc : x.loc = ⟨BitVec.ofNat 8 b, dev, fn⟩ := allot_locs _ _ _ hrange
        apply hown
        rw [← hloc, he]
        exact List.mem_append_right _ hmem
      · have hloc : x.loc ∈ (below.functions s.next (s.next + 1)).map Prod.fst :=
          below.allot_locs _ _ _ hrange
        exact hdisjoint x.loc hloc f.loc hmem he

/-- Hosts whose functions have the registers that the bus allows. -/
structure LegalTopology extends Topology where
  legal : ∀ f ∈ bus.functions 0 1, Legal f.2

/-- The node of the function at `loc` says what the walker has reported for it, and making it
leaves the registers as they are. -/
def TreeAgrees (loc : Loc) (ctx : Ctx) : Prop :=
  installOneDevice (hostAccess loc.bus loc.dev loc.fn) loc ctx.walk.cfg =
    (some (nodeFor loc ((assignments ctx.walk.out).filter (·.loc = loc))), ctx.walk.cfg)

theorem filter_loc {l₀ l l₁ : List Assignment} (h₀ : ∀ x ∈ l₀, x.loc ≠ loc)
    (h : ∀ x ∈ l, x.loc = loc) (h₁ : ∀ x ∈ l₁, x.loc ≠ loc) :
    (l₀ ++ l ++ l₁).filter (·.loc = loc) = l := by
  have hnone : ∀ l' : List Assignment, (∀ x ∈ l', x.loc ≠ loc) →
      l'.filter (·.loc = loc) = [] := by
    intro l' hne
    exact List.filter_eq_nil_iff.2 fun x hx he => hne x hx (of_decide_eq_true he)
  rw [List.filter_append, List.filter_append, hnone l₀ h₀, hnone l₁ h₁, List.nil_append,
    List.append_nil]
  exact List.filter_eq_self.2 fun x hx => decide_eq_true (h x hx)

theorem Reached.hom {fill : Config → Bus} (h : Reached lo 0 s X' s' f dev fn s₀ fill) :
    funcAccess.Hom (hostAccess f.loc.bus f.loc.dev f.loc.fn) fill := by
  have hdev := h.dev_lt
  have hfn := h.fn_lt
  rw [h.loc]
  refine ⟨fun c reg => ?_, fun c reg v => ?_⟩
  · rw [hostAccess_read32 _ _ hdev hfn]
    exact h.read c (dword reg)
  · rw [hostAccess_write32 _ _ hdev hfn]
    exact h.write c (dword reg) v

theorem Scans.treeAgrees_iff (t : LegalTopology) (h : Scans 0 none 0 Scan.reset t.bus X s)
    (hf : f ∈ t.bus.arrivals 0 1 Alloc.reset) (hkind : headerType f.cfg &&& 0x7F#8 = 0x00#8) :
    TreeAgrees f.loc (s.ctx X) ↔ Describable f.loc f.cfg f.alloc := by
  have hbridge : isBridge f.cfg = false := by
    rw [isBridge, hkind]
    rfl
  have hnd := h.functions_nodup t.toTopology
  obtain ⟨dev, fn, s₀, fill, hreach⟩ :=
    h.reached (fun f hf => (t.legal f hf).toPlainRegs) hnd hf hbridge
  have hlegal : Legal f.cfg := t.legal _ (Bus.arrivals_functions t.bus hf)
  obtain ⟨l, node, hout, hlocs, hnode, hiff⟩ :=
    entered_node 0 dev fn f.cfg s₀ hlegal hkind hreach.vendor hreach.loc
  obtain ⟨before, hbefore, hne⟩ := hreach.before
  obtain ⟨after, hafter, hne'⟩ := hreach.after
  have hinstall := hreach.hom.installOneDevice f.loc (entered 0 dev fn f.cfg s₀).cfg
  rw [hnode, ← hreach.bus] at hinstall
  have hlines : assignments s.out = before ++ l ++ after := by
    rw [hafter, hout, hbefore]
    rfl
  have hfilter : (assignments s.out).filter (·.loc = f.loc) = l := by
    rw [hlines, filter_loc hne hlocs hne']
  rw [TreeAgrees, show (s.ctx X).walk.cfg = X from rfl, show (s.ctx X).walk.out = s.out from rfl,
    hinstall, hfilter, Prod.mk.injEq, Option.some.injEq, ← hreach.alloc, hiff]
  exact and_iff_left rfl

/-- After `pci_walk` the nodes of the type-0 functions on bus 0 say what the walker has assigned,
except for functions with BARs of 4 GiB or more and for ROMs at address 0. -/
theorem pciWalk_treeAgrees_iff (t₀ t₁ : LegalTopology) :
    ∃ depth, ∀ k, ∃ ctx₀ ctx₁, pciWalk (depth + k) t₀.bus t₁.bus = some (ctx₀, ctx₁) ∧
      (∀ f ∈ t₀.bus.arrivals 0 1 Alloc.reset, headerType f.cfg &&& 0x7F#8 = 0x00#8 →
        (TreeAgrees f.loc ctx₀ ↔ Describable f.loc f.cfg f.alloc)) ∧
      ∀ f ∈ t₁.bus.arrivals 0 1 Alloc.reset, headerType f.cfg &&& 0x7F#8 = 0x00#8 →
        (TreeAgrees f.loc ctx₁ ↔ Describable f.loc f.cfg f.alloc) :=
  pciWalk_satisfies t₀.toTopology t₁.toTopology
    (fun _ _ h _ hf hkind => h.treeAgrees_iff t₀ hf hkind)
    (fun _ _ h _ hf hkind => h.treeAgrees_iff t₁ hf hkind)

/-- A card with one 64-bit memory BAR of 8 GiB. -/
def hugeCard : Config
  | 0 => ⟨0x10501AF4#32, 0#32, 0#32⟩
  | 4 => ⟨0x4#32, 0#32, 0#32⟩
  | 5 => ⟨0#32, 0xFFFFFFFE#32, 0#32⟩
  | _ => ⟨0#32, 0#32, 0#32⟩

theorem hugeCard_legal : Legal hugeCard where
  bars i hi := by
    have hi' : i < 6 := hi
    interval_cases i <;> exact ⟨by decide, by decide⟩
  rom := ⟨by decide, by decide⟩
  slots _ :=
    .wide (by decide) (by decide) (.inr ⟨33, by decide, by decide⟩) <|
    .narrow (by decide) (by decide) <| .narrow (by decide) (by decide) <|
    .narrow (by decide) (by decide) <| .narrow (by decide) (by decide) <| .done (by decide)
  romReserved _ := by decide

def hugeCardHost : LegalTopology where
  bus := .cons 0 0 hugeCard .nil .nil
  formed := .func ⟨by decide, by decide, by decide, by decide, .inl rfl⟩ (by decide) .nil
  bridges_le := by decide
  legal f hf := List.mem_singleton.1 hf ▸ hugeCard_legal

def vacantHost : LegalTopology :=
  { Topology.vacant with legal := fun _ hf => absurd hf List.not_mem_nil }

/-- The walker gives the upper half of the BAR an address, of which the tree says nothing. -/
theorem hugeCard_disagrees : ∃ depth, ∀ k, ∃ ctx₀ ctx₁,
    pciWalk (depth + k) hugeCardHost.bus vacantHost.bus = some (ctx₀, ctx₁) ∧
      ¬ TreeAgrees ⟨0#8, 0, 0⟩ ctx₀ := by
  have hf : (⟨⟨0#8, 0, 0⟩, hugeCard, Alloc.reset⟩ : Arrival) ∈
      hugeCardHost.bus.arrivals 0 1 Alloc.reset := List.mem_singleton_self _
  have hno (X : Bus) (s : Scan)
      (h : Scans 0 none 0 Scan.reset hugeCardHost.bus X s) :
      ¬ TreeAgrees ⟨0#8, 0, 0⟩ (s.ctx X) := by
    intro hagrees
    have hdesc := (h.treeAgrees_iff hugeCardHost hf (by decide)).1 hagrees
    have hsmall := hdesc.small ⟨0x10, .mem, 2 ^ 33⟩ (by decide)
    exact absurd hsmall (by decide)
  have hwalk : ∃ depth, ∀ k, ∃ ctx₀ ctx₁,
      pciWalk (depth + k) hugeCardHost.bus vacantHost.bus = some (ctx₀, ctx₁) ∧
        ¬ TreeAgrees ⟨0#8, 0, 0⟩ ctx₀ ∧ True :=
    pciWalk_satisfies hugeCardHost.toTopology vacantHost.toTopology hno fun _ _ _ => trivial
  simpa only [and_true] using hwalk

end Pegasos2.Pci
