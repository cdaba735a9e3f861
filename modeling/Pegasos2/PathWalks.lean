import Pegasos2.FfsPaths

namespace Pegasos2.Fs
open Program
open Tokens (EndsSep)
open Ffs (components components_skip components_next)
set_option autoImplicit true

namespace Walker

/-- The directory that a node names. The nodes are the directory that a walk starts from, and the
entries of directories. -/
def dirOf (k : Walker δ ε ρ) : δ ⊕ ε → Option δ := Sum.elim some k.enter

/-- The result for a node that a path leads to, which ends on a separator or not. -/
inductive Shows (k : Walker δ ε ρ) (slash : Prop) : δ ⊕ ε → ρ → Prop where
  | root {dir : δ} : Shows k slash (.inl dir) (k.here dir)
  | last (h : ¬ slash) : Shows k slash (.inr e) (k.last e)
  | inside {dir : δ} (h : slash) (henter : k.enter e = some dir) :
      Shows k slash (.inr e) (k.here dir)

/-- The searches of a walk are those of a tree, as long as names have at most `len` bytes.
`Missing` are the return codes for a name that is not there. -/
structure Searches (k : Walker δ ε ρ) (t : NameTree (δ ⊕ ε) (List UInt8)) (root : δ) (len : Nat)
    (Missing : Retcode → Prop) : Prop where
  isDir : ∀ n, t.IsDir n ↔ ∃ dir, k.dirOf n = some dir
  noFile : Missing .eNoFile
  lookup : ∀ n dir, t.Reaches (.inl root) n → k.dirOf n = some dir → ∀ c : List UInt8,
    c.length ≤ len → Prog.Yields (k.lookup dir c) fun r =>
      (∃ e, r = .ok e ∧ t.Entry n c (.inr e)) ∨
        ∃ ret, r = .error ret ∧ Missing ret ∧ ∀ m, ¬ t.Entry n c m

/-- The result of a walk is what the path leads to. -/
def Resolved (k : Walker δ ε ρ) (t : NameTree (δ ⊕ ε) (List UInt8)) (root : δ) (path : List Char)
    (Missing : Retcode → Prop) (r : Except Retcode ρ) : Prop :=
  (∃ ret, r = .error ret ∧ Missing ret ∧
    t.Leads (EndsSep isSep path) (.inl root) (components path) none) ∨
  ∃ n x, r = .ok x ∧ t.Leads (EndsSep isSep path) (.inl root) (components path) (some n) ∧
    k.Shows (EndsSep isSep path) n x

/-- A state of the path loop. Its directory is that of the node `n`, which the components in front
of the rest of the path lead to. -/
structure AtNode (k : Walker δ ε ρ) (t : NameTree (δ ⊕ ε) (List UInt8)) (root : δ)
    (path : List Char) (s : δ × List Char) (n : δ ⊕ ε) : Prop where
  reaches : t.Reaches (.inl root) n
  dir : k.dirOf n = some s.1
  short : s.2.length ≤ path.length
  inside : s.2 = [] → ∀ e, n = .inr e → EndsSep isSep path
  slash : s.2 ≠ [] → (EndsSep isSep s.2 ↔ EndsSep isSep path)
  leads : ∀ r, t.Leads (EndsSep isSep path) n (components s.2) r →
    t.Leads (EndsSep isSep path) (.inl root) (components path) r

section

variable {k : Walker δ ε ρ} {t : NameTree (δ ⊕ ε) (List UInt8)} {root : δ} {path : List Char}
  {Missing : Retcode → Prop} {s : δ × List Char}

theorem AtNode.short_tail (h : AtNode k t root path s n) :
    (fromSep s.2).tail.length ≤ path.length := by
  rw [List.length_tail]
  exact Nat.le_trans (Nat.sub_le _ _) (Nat.le_trans (length_fromSep_le s.2) h.short)

theorem AtNode.ends (h : AtNode k t root path s n) (hcur : s.2 ≠ []) (hrest : fromSep s.2 ≠ [])
    (hnone : components (fromSep s.2).tail = []) : EndsSep isSep path :=
  (h.slash hcur).1 (Tokens.endsSep_of_tokens_nil hrest (List.map_eq_nil_iff.1 hnone))

theorem AtNode.skip (h : AtNode k t root path s n) (hcur : s.2 ≠ []) (hempty : component s.2 = []) :
    AtNode k t root path (s.1, (fromSep s.2).tail) n where
  reaches := h.reaches
  dir := h.dir
  short := h.short_tail
  inside := by
    intro htail e _
    have htail : (fromSep s.2).tail = [] := htail
    have hfirst : Tokens.first isSep s.2 = [] := List.map_eq_nil_iff.1 hempty
    have happend := Tokens.first_append_rest isSep s.2
    rw [hfirst, List.nil_append] at happend
    have hrest : fromSep s.2 ≠ [] := fun hnil => hcur (happend.symm.trans hnil)
    apply h.ends hcur hrest
    rw [htail]
    rfl
  slash := fun htail => (Tokens.endsSep_tail htail).symm.trans (h.slash hcur)
  leads := fun r hr => h.leads r (components_skip hempty ▸ hr)

theorem AtNode.enter {dir : δ} (h : AtNode k t root path s n)
    (hsearch : k.Searches t root len Missing) (hcur : s.2 ≠ []) (hname : component s.2 ≠ [])
    (hrest : fromSep s.2 ≠ [])
    (hentry : t.Entry n (component s.2) (.inr e)) (henter : k.enter e = some dir) :
    AtNode k t root path (dir, (fromSep s.2).tail) (.inr e) := by
  have hdir : t.IsDir n := (hsearch.isDir n).2 ⟨s.1, h.dir⟩
  constructor
  · exact .entry h.reaches hdir hentry
  · exact henter
  · exact h.short_tail
  · intro htail e' _
    have htail : (fromSep s.2).tail = [] := htail
    apply h.ends hcur hrest
    rw [htail]
    rfl
  · exact fun htail => (Tokens.endsSep_tail htail).symm.trans (h.slash hcur)
  · intro r hr
    apply h.leads
    rw [components_next hname]
    exact .enter hdir hentry hr

theorem AtNode.found (h : AtNode k t root path s n) (hsearch : k.Searches t root len Missing)
    (hcur : s.2 ≠ []) (hname : component s.2 ≠ [])
    (hentry : t.Entry n (component s.2) (.inr e)) :
    Prog.Yields.Next (fun s => ∃ n, AtNode k t root path s n) (fun s => s.2.length) s.2.length
      (k.Resolved t root path Missing) (k.next (fromSep s.2) (.ok e)) := by
  have hdir : t.IsDir n := (hsearch.isDir n).2 ⟨s.1, h.dir⟩
  have hleads (r : Option (δ ⊕ ε)) (hr : t.Leads (EndsSep isSep path) (.inr e)
      (components (fromSep s.2).tail) r) :
      t.Leads (EndsSep isSep path) (.inl root) (components path) r := by
    apply h.leads
    rw [components_next hname]
    exact .enter hdir hentry hr
  rw [next]
  split_ifs with hlast
  · have hslash : ¬ EndsSep isSep path :=
      fun hslash => Tokens.not_endsSep hlast ((h.slash hcur).2 hslash)
    refine .inr ⟨.inr e, _, rfl, hleads _ ?_, .last hslash⟩
    rw [hlast]
    exact .here fun hslash' => absurd hslash' hslash
  · cases henter : k.enter e with
    | none =>
      have hnot : ¬ t.IsDir (.inr e) := by
        intro hdir
        obtain ⟨dir, hsome⟩ := (hsearch.isDir _).1 hdir
        exact absurd (henter.symm.trans hsome) (Option.some_ne_none dir).symm
      refine .inl ⟨_, rfl, hsearch.noFile, hleads _ ?_⟩
      cases hrest : components (fromSep s.2).tail with
      | nil => exact .trailing (h.ends hcur hlast hrest) hnot
      | cons c cs => exact .noDir hnot
    | some dir =>
      exact ⟨⟨_, h.enter hsearch hcur hname hlast hentry henter⟩, length_tail_fromSep_lt hcur⟩

theorem walkPath_resolved (hsearch : k.Searches t root path.length Missing) :
    Prog.Yields (k.walkPath root path) (k.Resolved t root path Missing) := by
  apply Prog.Yields.loop (fun s => ∃ n, AtNode k t root path s n) (fun s => s.2.length)
  · rintro s ⟨n, h⟩
    rw [round]
    split_ifs with hend hempty
    · apply Prog.Yields.pure
      have hdir : t.IsDir n := (hsearch.isDir n).2 ⟨s.1, h.dir⟩
      refine .inr ⟨n, _, rfl, h.leads _ ?_, ?_⟩
      · rw [hend]
        exact .here fun _ => hdir
      · have hname := h.dir
        cases n with
        | inl dir =>
          obtain rfl := Option.some.inj hname
          exact .root
        | inr e => exact .inside (h.inside hend e rfl) hname
    · exact Prog.Yields.pure ⟨⟨n, h.skip hend hempty⟩, length_tail_fromSep_lt hend⟩
    · have hlen : (component s.2).length ≤ path.length := by
        rw [component, List.length_map]
        exact Nat.le_trans (List.takeWhile_sublist _).length_le h.short
      apply Prog.Yields.bind (hsearch.lookup n s.1 h.reaches h.dir _ hlen)
      rintro _ (⟨e, rfl, hentry⟩ | ⟨ret, rfl, hmissing, hnone⟩)
      · exact Prog.Yields.pure (h.found hsearch hend hempty hentry)
      · apply Prog.Yields.pure
        refine .inl ⟨ret, rfl, hmissing, h.leads _ ?_⟩
        rw [components_next hempty]
        exact .absent ((hsearch.isDir n).2 ⟨s.1, h.dir⟩) hnone
  · refine ⟨.inl root, .root, rfl, (List.dropWhile_sublist _).length_le, fun _ e he => ?_,
      fun hne => ?_, fun r hr => ?_⟩
    · cases he
    · have happend := Tokens.endsSep_append (p := isSep) (path.takeWhile isSep) hne
      rw [List.takeWhile_append_dropWhile] at happend
      exact happend.symm
    · rwa [components, Tokens.tokens_dropWhile fun _ h => h] at hr

end

end Walker

/-- The comparison of names, as long as their lengths fit into an `uInt`. -/
theorem nameEq_iff {fold : UInt8 → UInt8} {a name : List UInt8} (h : name.length < 2 ^ 32) :
    nameEq fold a name = true ↔ a.map fold = name.map fold := by
  rw [nameEq, Bool.and_eq_true, beq_iff_eq, beq_iff_eq, u32, Nat.mod_eq_of_lt h]
  constructor
  · rintro ⟨hlen, heq⟩
    rwa [hlen, List.take_length] at heq
  · intro heq
    have hlen := congrArg List.length heq
    rw [List.length_map, List.length_map] at hlen
    refine ⟨hlen, ?_⟩
    rwa [hlen, List.take_length]

end Pegasos2.Fs
