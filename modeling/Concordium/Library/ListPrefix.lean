import Mathlib.Data.List.Perm.Basic
import Mathlib.Data.List.Lex

/-!
Contract: stripping a prefix off a list, and collecting the lists of a list of items by
prepending each one to what was collected before.

Owns:
- `dropPrefix?_eq_some_iff`: stripping succeeds exactly on a list that starts with the prefix;
- `dropPrefix?_append`: stripping a concatenation strips its parts one after the other;
- `lex_irrefl`: no list is lexicographically below itself, and `lex_append_singleton_iff`: lists
  of one length extended by one element compare on the lists, then on the elements;
- `foldl_prepend` and `foldl_prepend_perm`: a left fold that prepends each item's list gives the
  items' lists last item first, a permutation of their concatenation in order; and
  `flatMap_attach`, that attached membership proofs nobody reads change nothing.

Does not own: any particular kind of key or container.
-/

set_option autoImplicit false

namespace ListPrefix

variable {α : Type}

section Strip

variable [DecidableEq α]

theorem dropPrefix?_eq_some_iff {l p s : List α} : l.dropPrefix? p = some s ↔ l = p ++ s := by
  rw [List.dropPrefix?_eq_some_iff]
  constructor
  · rintro ⟨p', rfl, same⟩
    rw [beq_iff_eq.mp same]
  · rintro rfl
    exact ⟨p, rfl, beq_self_eq_true p⟩

theorem dropPrefix?_append_self (p s : List α) : (p ++ s).dropPrefix? p = some s :=
  dropPrefix?_eq_some_iff.mpr rfl

theorem dropPrefix?_eq_none_iff {l p : List α} : l.dropPrefix? p = none ↔ ¬ p <+: l := by
  constructor
  · rintro stripped ⟨s, rfl⟩
    rw [dropPrefix?_append_self] at stripped
    cases stripped
  · intro notPrefix
    cases stripped : l.dropPrefix? p with
    | none => rfl
    | some s => exact absurd ⟨s, (dropPrefix?_eq_some_iff.mp stripped).symm⟩ notPrefix

theorem dropPrefix?_cons_cons (a b : α) (l p : List α) :
    (a :: l).dropPrefix? (b :: p) = if a = b then l.dropPrefix? p else none := by
  simp [List.dropPrefix?]

theorem dropPrefix?_append (l p q : List α) :
    l.dropPrefix? (p ++ q) = (l.dropPrefix? p).bind (·.dropPrefix? q) := by
  apply Option.ext
  intro s
  rw [Option.bind_eq_some_iff, dropPrefix?_eq_some_iff]
  simp only [dropPrefix?_eq_some_iff]
  constructor
  · rintro rfl
    exact ⟨q ++ s, List.append_assoc p q s, rfl⟩
  · rintro ⟨rest, rfl, rfl⟩
    exact (List.append_assoc p q s).symm

end Strip

section Lex

variable {r : α → α → Prop}

/-- The lexicographic extension of an irreflexive relation is irreflexive. -/
theorem lex_irrefl (irrefl : ∀ a, ¬ r a a) : ∀ l : List α, ¬ List.Lex r l l
  | [], lex => by cases lex
  | a :: rest, lex => by
      cases lex with
      | cons restLex => exact lex_irrefl irrefl rest restLex
      | rel below => exact irrefl a below

theorem lex_cons_cons_iff {a b : α} {l m : List α} :
    List.Lex r (a :: l) (b :: m) ↔ r a b ∨ a = b ∧ List.Lex r l m := by
  constructor
  · intro lex
    cases lex with
    | cons restLex => exact .inr ⟨rfl, restLex⟩
    | rel below => exact .inl below
  · rintro (below | ⟨rfl, restLex⟩)
    · exact .rel below
    · exact .cons restLex

/-- Lists of one length, each extended by one element, compare on the lists first and on the
elements where the lists are equal. -/
theorem lex_append_singleton_iff {x y : α} : ∀ {l m : List α}, l.length = m.length →
    (List.Lex r (l ++ [x]) (m ++ [y]) ↔ List.Lex r l m ∨ l = m ∧ r x y)
  | [], [], _ => by
      rw [List.nil_append, List.nil_append, List.lex_singleton_iff]
      constructor
      · intro below
        exact .inr ⟨rfl, below⟩
      · rintro (nothing | ⟨-, below⟩)
        · cases nothing
        · exact below
  | [], _ :: _, sameLength => absurd sameLength (Nat.succ_ne_zero _).symm
  | _ :: _, [], sameLength => absurd sameLength (Nat.succ_ne_zero _)
  | a :: l, b :: m, sameLength => by
      rw [List.cons_append, List.cons_append, lex_cons_cons_iff, lex_cons_cons_iff,
        lex_append_singleton_iff (Nat.succ_inj.mp sameLength), List.cons_eq_cons, and_or_left,
        or_assoc, and_assoc]

end Lex

section Prepend

variable {β : Type} (f : β → List α)

/-- Prepending each item's list collects the lists last item first. -/
theorem foldl_prepend : ∀ (items : List β) (acc : List α),
    items.foldl (fun acc item => f item ++ acc) acc = (items.reverse.map f).flatten ++ acc
  | [], acc => rfl
  | item :: rest, acc => by
      rw [List.foldl_cons, foldl_prepend rest, List.reverse_cons, List.map_append,
        List.flatten_append, List.map_singleton, List.flatten_singleton, List.append_assoc]

theorem foldl_prepend_perm (items : List β) :
    (items.foldl (fun acc item => f item ++ acc) []).Perm (items.flatMap f) := by
  rw [foldl_prepend, List.append_nil, List.flatMap_def]
  exact List.Perm.flatMap (List.reverse_perm items) (fun _ _ => List.Perm.refl _)

/-- Attaching membership proofs that the function ignores changes nothing. -/
theorem flatMap_attach {γ : Type} (items : List β) (g : β → List γ) :
    (items.attach.flatMap fun item => g item.1) = items.flatMap g := by
  rw [List.flatMap_def, List.flatMap_def]
  congr 1
  exact List.map_attach_eq_pmap.trans (List.pmap_eq_map ..)

end Prepend

end ListPrefix
