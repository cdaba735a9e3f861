import Mathlib.Data.List.Basic
import Mathlib.Data.List.TakeWhile

set_option autoImplicit true

namespace Tokens

variable {p : α → Bool}

/-- The nonempty parts of a list between the elements that separate them. -/
def tokens (p : α → Bool) (l : List α) : List (List α) := (l.splitOnP p).filter fun t => !t.isEmpty

/-- The part of a list in front of its first separator. -/
def first (p : α → Bool) (l : List α) : List α := l.takeWhile fun x => !p x

/-- A list from its first separator on. -/
def rest (p : α → Bool) (l : List α) : List α := l.dropWhile fun x => !p x

theorem not_sep_of_mem_first (h : x ∈ first p l) : p x = false := by
  have hx := List.mem_takeWhile_imp h
  rwa [Bool.not_eq_true'] at hx

theorem sep_of_rest (h : rest p l = x :: xs) : p x = true := by
  have hx := List.head?_dropWhile_not (fun x => !p x) l
  rw [rest] at h
  rw [h] at hx
  simpa using hx

theorem first_append_rest (p : α → Bool) (l : List α) : first p l ++ rest p l = l :=
  List.takeWhile_append_dropWhile

theorem tokens_nil (p : α → Bool) : tokens p [] = [] := rfl

theorem tokens_append_cons (l l' : List α) (h : p x = true) :
    tokens p (l ++ x :: l') = tokens p l ++ tokens p l' := by
  rw [tokens, List.splitOnP_append_cons l l' h, List.filter_append]
  rfl

theorem tokens_cons_sep (l : List α) (h : p x = true) : tokens p (x :: l) = tokens p l :=
  tokens_append_cons [] l h

theorem tokens_single (h : ∀ x ∈ l, p x = false) (hne : l ≠ []) : tokens p l = [l] := by
  rw [tokens, List.splitOnP_eq_singleton h]
  cases l with
  | nil => contradiction
  | cons x l => rfl

theorem tokens_eq (p : α → Bool) (l : List α) :
    tokens p l = tokens p (first p l) ++ tokens p (rest p l).tail := by
  cases hrest : rest p l with
  | nil =>
    have hl := first_append_rest p l
    rw [hrest, List.append_nil] at hl
    rw [hl, List.tail_nil, tokens_nil, List.append_nil]
  | cons x xs =>
    have hl := first_append_rest p l
    rw [hrest] at hl
    rw [List.tail_cons, ← tokens_append_cons _ _ (sep_of_rest hrest), hl]

theorem tokens_skip (h : first p l = []) : tokens p l = tokens p (rest p l).tail := by
  rw [tokens_eq, h, tokens_nil, List.nil_append]

theorem tokens_next (h : first p l ≠ []) : tokens p l = first p l :: tokens p (rest p l).tail := by
  rw [tokens_eq, tokens_single (fun _ hx => not_sep_of_mem_first hx) h, List.singleton_append]

theorem tokens_dropWhile {q : α → Bool} (h : ∀ x, q x = true → p x = true) (l : List α) :
    tokens p (l.dropWhile q) = tokens p l := by
  induction l with
  | nil => rfl
  | cons x l ih =>
    rw [List.dropWhile_cons]
    split_ifs with hx
    · rw [ih, tokens_cons_sep l (h x hx)]
    · rfl

theorem tokens_rest (p : α → Bool) (l : List α) :
    tokens p l = tokens p (first p l) ++ tokens p (rest p l) := by
  rw [tokens_eq]
  cases hrest : rest p l with
  | nil => rfl
  | cons x xs => rw [tokens_cons_sep xs (sep_of_rest hrest), List.tail_cons]

/-- The last element of a list is a separator. -/
def EndsSep (p : α → Bool) (l : List α) : Prop := ∃ x ∈ l.getLast?, p x = true

theorem endsSep_append (l : List α) (h : l' ≠ []) : EndsSep p (l ++ l') ↔ EndsSep p l' := by
  rw [EndsSep, EndsSep, List.getLast?_append_of_ne_nil l h]

theorem not_endsSep (h : rest p l = []) : ¬ EndsSep p l := by
  rintro ⟨x, hx, hsep⟩
  have hl := first_append_rest p l
  rw [h, List.append_nil] at hl
  rw [← hl] at hx
  have hnot := not_sep_of_mem_first (List.mem_of_getLast? hx)
  rw [hnot] at hsep
  cases hsep

theorem endsSep_tail (h : (rest p l).tail ≠ []) : EndsSep p l ↔ EndsSep p (rest p l).tail := by
  cases hrest : rest p l with
  | nil =>
    rw [hrest] at h
    contradiction
  | cons x xs =>
    rw [hrest] at h
    have hl := first_append_rest p l
    rw [hrest, ← List.singleton_append, ← List.append_assoc] at hl
    rw [← hl]
    exact endsSep_append _ h

theorem endsSep_rest (h : rest p l ≠ []) : EndsSep p l ↔ EndsSep p (rest p l) := by
  have happend := endsSep_append (p := p) (first p l) h
  rwa [first_append_rest] at happend

theorem sep_of_tokens_nil (h : tokens p l = []) : ∀ x ∈ l, p x = true := by
  induction l with
  | nil =>
    intro x hx
    cases hx
  | cons y l ih =>
    have hy : p y = true := by
      by_contra hnot
      rw [Bool.not_eq_true] at hnot
      have hfirst : first p (y :: l) ≠ [] := by
        rw [first, List.takeWhile_cons_of_pos (by rw [hnot]; rfl)]
        exact List.cons_ne_nil _ _
      rw [tokens_next hfirst] at h
      cases h
    rw [tokens_cons_sep l hy] at h
    intro x hx
    cases hx with
    | head => exact hy
    | tail _ hx => exact ih h x hx

/-- A separator that no token follows is at the end, but for other separators. -/
theorem endsSep_of_tokens_nil (hne : rest p l ≠ []) (h : tokens p (rest p l).tail = []) :
    EndsSep p l := by
  rw [endsSep_rest hne]
  cases hrest : rest p l with
  | nil => contradiction
  | cons x xs =>
    have hall : ∀ y ∈ x :: xs, p y = true := by
      rw [hrest, List.tail_cons] at h
      intro y hy
      cases hy with
      | head => exact sep_of_rest hrest
      | tail _ hy => exact sep_of_tokens_nil h y hy
    exact ⟨_, List.getLast?_eq_some_getLast (List.cons_ne_nil x xs), hall _ (List.getLast_mem _)⟩

end Tokens

/-- What a file system is to those who look for a path: which nodes are directories, and which
names are in them. -/
structure NameTree (ν κ : Type) where
  IsDir : ν → Prop
  Entry : ν → κ → ν → Prop

namespace NameTree

variable {ν κ : Type} {t : NameTree ν κ}

/-- What a list of names leads to from a node on. The node has to be a directory if the path ends
on a separator (`slash`), or if another name follows. -/
inductive Leads (t : NameTree ν κ) (slash : Prop) : ν → List κ → Option ν → Prop where
  | here (h : slash → t.IsDir n) : Leads t slash n [] (some n)
  | trailing (h : slash) (hdir : ¬ t.IsDir n) : Leads t slash n [] none
  | noDir (h : ¬ t.IsDir n) : Leads t slash n (c :: cs) none
  | absent (hdir : t.IsDir n) (h : ∀ m, ¬ t.Entry n c m) : Leads t slash n (c :: cs) none
  | enter (hdir : t.IsDir n) (h : t.Entry n c m) (hleads : Leads t slash m cs r) :
      Leads t slash n (c :: cs) r

/-- The nodes below a node. -/
inductive Reaches (t : NameTree ν κ) (n : ν) : ν → Prop where
  | root : Reaches t n n
  | entry (h : Reaches t n m) (hdir : t.IsDir m) (hentry : t.Entry m c k) : Reaches t n k

theorem Leads.reaches {slash : Prop} (h : Leads t slash n cs (some m)) (hreach : t.Reaches root n) :
    t.Reaches root m := by
  generalize hr : some m = r at h
  induction h with
  | here =>
    obtain rfl := Option.some.inj hr
    exact hreach
  | trailing => cases hr
  | noDir => cases hr
  | absent => cases hr
  | enter hdir h hleads ih => exact ih (.entry hreach hdir h) hr

/-- Where no directory has two entries for a name, a path leads to one node at most. -/
theorem Leads.unique {slash : Prop} (h : Leads t slash n cs r) (h' : Leads t slash n cs r')
    (hreach : t.Reaches root n)
    (hone : ∀ n, t.Reaches root n → t.IsDir n → ∀ c m k, t.Entry n c m → t.Entry n c k → m = k) :
    r = r' := by
  induction h with
  | here h =>
    cases h' with
    | here h' => rfl
    | trailing h' hdir => exact absurd (h h') hdir
  | trailing h hdir =>
    cases h' with
    | here h' => exact absurd (h' h) hdir
    | trailing h' hdir => rfl
  | noDir h =>
    cases h' with
    | noDir h' => rfl
    | absent hdir h' => rfl
    | enter hdir h' hleads => exact absurd hdir h
  | absent hdir h =>
    cases h' with
    | noDir h' => rfl
    | absent hdir h' => rfl
    | enter hdir h' hleads => exact absurd h' (h _)
  | enter hdir h hleads ih =>
    cases h' with
    | noDir h' => exact absurd hdir h'
    | absent hdir h' => exact absurd h (h' _)
    | enter hdir h' hleads' =>
      obtain rfl := hone _ hreach hdir _ _ _ h h'
      exact ih hleads' (.entry hreach hdir h)

end NameTree
