import Concordium.GlobalState.Persistent.Trie.WellFormed

/-!
Contract: `alterM` on a well-formed trie alters exactly the value at its key and leaves a
well-formed trie, reaching none of its errors.

Owns:
- `Outcome`: which continuation the recursion `alterM.aM` calls at a subtrie and with what;
- `Alters`: the outcome gives the update function's result for the value at the key, changes
  the lookups at that key alone as the alteration says, and leaves a well-formed subtrie;
- one lemma per kind of node visit (a value, a new child of a branch, a child of a branch, a
  stem that starts the key, a stem split by the key), and `aM_spec`, which puts them together
  along the recursion of `alterM.aM`;
- `alterM_spec`: the same for `alterM` with the top-level continuations.

Does not own: the sizes kept by `TrieN`.
-/

set_option autoImplicit false

namespace Concordium.GlobalState.Persistent.Trie

variable {k v α : Type}

/-! ## What a visit of a subtrie does -/

/-- A trie under a stem, the stem left out when it is empty, as `alterM` builds them. -/
def stemOver : List UInt8 → Trie v → Trie v
  | [], t => t
  | skey, t => .stem skey t

/-- The lookups of a trie that may be empty. -/
def lookupIn (result : Option (Trie v)) (key : List UInt8) : Option v :=
  result.bind (lookupF.lu key)

def Alteration.apply : Alteration v → Option v → Option v
  | .noChange, old => old
  | .remove, _ => none
  | .insert value, _ => some value

/-- Which continuation `alterM.aM` calls at a subtrie: the subtrie is unchanged, becomes empty,
or becomes `subtrie` under the stem `stemKey`; always with the update function's result. -/
inductive Outcome (α v : Type) where
  | noChange (res : α)
  | removed (res : α)
  | updated (res : α) (stemKey : List UInt8) (subtrie : Trie v)

namespace Outcome

def res : Outcome α v → α
  | noChange res => res
  | removed res => res
  | updated res _ _ => res

def run {ζ : Type} (nochange remove : α → Except String ζ)
    (update : α → List UInt8 → Trie v → Except String ζ) : Outcome α v → Except String ζ
  | noChange res => nochange res
  | removed res => remove res
  | updated res skey t => update res skey t

/-- The subtrie an outcome leaves in place of `t`. -/
def result (t : Trie v) : Outcome α v → Option (Trie v)
  | noChange _ => some t
  | removed _ => none
  | updated _ skey t' => some (stemOver skey t')

end Outcome

/-- The outcome of altering `key` in a subtrie `t` of keys of `length` bytes is right: it carries
the update function's result, alters the lookup at `key` alone, and leaves a well-formed trie. -/
structure Alters (upd : Option v → α × Alteration v) (length : Nat) (key : List UInt8)
    (t : Trie v) (outcome : Outcome α v) : Prop where
  res : outcome.res = (upd (lookupF.lu key t)).1
  lookups : ∀ query, lookupIn (outcome.result t) query =
    if query = key then (upd (lookupF.lu key t)).2.apply (lookupF.lu key t)
    else lookupF.lu query t
  wellFormed : ∀ t', outcome.result t = some t' → WellFormed length t'

/-! ## Stems -/

theorem stemOver_nil (t : Trie v) : stemOver [] t = t := rfl

theorem stemOver_cons (byte : UInt8) (skey : List UInt8) (t : Trie v) :
    stemOver (byte :: skey) t = .stem (byte :: skey) t := rfl

theorem ite_isEmpty_eq_stemOver (skey : List UInt8) (t : Trie v) :
    (if skey.isEmpty = true then t else .stem skey t) = stemOver skey t := by
  cases skey <;> rfl

theorem lu_stemOver (key skey : List UInt8) (t : Trie v) :
    lookupF.lu key (stemOver skey t) = (key.dropPrefix? skey).bind (lookupF.lu · t) := by
  cases skey with
  | nil => simp [stemOver]
  | cons byte rest => rw [stemOver_cons, lu_stem]

theorem wellFormed_stem {pref : List UInt8} {rest : Trie v} {restLength length : Nat}
    (nonempty : pref ≠ []) (restWellFormed : WellFormed restLength rest)
    (sum : length = pref.length + restLength) : WellFormed length (.stem pref rest) := by
  rw [sum]
  exact .stem nonempty restWellFormed

theorem wellFormed_stemOver (skey : List UInt8) {t : Trie v} {length : Nat}
    (wellFormed : WellFormed length t) : WellFormed (skey.length + length) (stemOver skey t) := by
  cases skey with
  | nil =>
      rw [stemOver_nil, List.length_nil, Nat.zero_add]
      exact wellFormed
  | cons byte rest => exact .stem (List.cons_ne_nil byte rest) wellFormed

theorem WellFormed.of_stemOver {skey : List UInt8} {t : Trie v} {length : Nat}
    (wellFormed : WellFormed length (stemOver skey t)) :
    ∃ restLength, length = skey.length + restLength ∧ WellFormed restLength t := by
  cases skey with
  | nil => exact ⟨length, by simp, wellFormed⟩
  | cons byte rest =>
      obtain ⟨restLength, sum, _, restWellFormed⟩ := wellFormed.stem_inv
      exact ⟨restLength, sum, restWellFormed⟩

theorem lu_stemOver_tip (key skey : List UInt8) (value : v) :
    lookupF.lu key (stemOver skey (.tip value)) = if key = skey then some value else none := by
  rw [lu_stemOver]
  cases stripped : key.dropPrefix? skey with
  | none =>
      have differ : key ≠ skey := by
        intro same
        apply ListPrefix.dropPrefix?_eq_none_iff.mp stripped
        subst same
        exact List.prefix_refl key
      rw [if_neg differ, Option.bind_none]
  | some suffix =>
      rw [ListPrefix.dropPrefix?_eq_some_iff.mp stripped, Option.bind_some, lu_tip]
      by_cases empty : suffix = []
      · rw [if_pos empty, empty, List.append_nil, if_pos rfl]
      · rw [if_neg empty, if_neg (fun same => empty (by simpa using same))]

/-- The outcome at a stem whose rest had `outcome`, as the continuation of `alterM.aM` builds
it: a new stem below it is joined to it. -/
def liftStem (pref : List UInt8) : Outcome α v → Outcome α v
  | .noChange res => .noChange res
  | .removed res => .removed res
  | .updated res skey t' => .updated res (pref ++ skey) t'

/-- A stem over the result of altering below it: its lookups strip the stem first. -/
theorem lookupIn_liftStem {pref : List UInt8} (nonempty : pref ≠ []) (rest : Trie v)
    (outcome : Outcome α v) (query : List UInt8) :
    lookupIn ((liftStem pref outcome).result (.stem pref rest)) query =
      (query.dropPrefix? pref).bind (lookupIn (outcome.result rest)) := by
  cases outcome with
  | noChange res =>
      simp only [liftStem, Outcome.result, lookupIn, Option.bind_some, lu_stem]
      cases query.dropPrefix? pref <;> rfl
  | removed res =>
      simp only [liftStem, Outcome.result, lookupIn, Option.bind_none]
      cases query.dropPrefix? pref <;> rfl
  | updated res skey t' =>
      obtain ⟨byte, more, rfl⟩ := List.exists_cons_of_ne_nil nonempty
      simp only [liftStem, Outcome.result, lookupIn, Option.bind_some, List.cons_append,
        stemOver_cons, lu_stem]
      rw [← List.cons_append, ListPrefix.dropPrefix?_append]
      cases query.dropPrefix? (byte :: more) with
      | none => rfl
      | some stripped => simp only [Option.bind_some, lookupIn, lu_stemOver]

/-! ## Branches -/

theorem length_updl (i : UInt8) (child : Trie v) :
    ∀ vec : List (BranchEntry (Trie v)), vec.length ≤ (updateBranch.updl i child vec).length
  | [] => Nat.zero_le _
  | p :: rest => by
      rw [updl_cons]
      split_ifs
      · simp
      · simp
      · simpa using length_updl i child rest

theorem length_remove (i : UInt8) :
    ∀ vec : List (BranchEntry (Trie v)), vec.length ≤ (updateBranch.remove i vec).length + 1
  | [] => Nat.zero_le _
  | p :: rest => by
      rw [remove_cons]
      split_ifs
      · simp
      · simp
      · simpa using length_remove i rest

/-- The lookups of a branch whose child at `kw` is replaced by `child` (or dropped). -/
def lookupReplaced (vec : List (BranchEntry (Trie v))) (kw : UInt8) (child : Option (Trie v)) :
    List UInt8 → Option v
  | [] => none
  | w :: query => if w = kw then lookupIn child query else (branchAt vec w).bind (lookupF.lu query)

theorem lu_updateBranch {vec : List (BranchEntry (Trie v))} (ordered : Ordered vec) (kw : UInt8)
    (child : Option (Trie v)) (query : List UInt8) :
    lookupF.lu query (.branch (updateBranch kw child vec)) = lookupReplaced vec kw child query := by
  cases query with
  | nil => simp [lookupReplaced]
  | cons w query =>
      rw [lu_branch_cons, branchAt_updateBranch _ _ _ ordered, lookupReplaced]
      split_ifs <;> rfl

/-- A branch left with a single child means the same as that child under a one-byte stem. -/
theorem lu_single_stem {vec : List (BranchEntry (Trie v))} {i : UInt8} {x : Trie v}
    (single : branchesToPairs vec = [(i, x)]) (query : List UInt8) :
    lookupF.lu query (.stem [i] x) = lookupF.lu query (.branch vec) := by
  obtain ⟨⟨index, branch⟩, rfl⟩ : ∃ entry, vec = [entry] := by
    cases vec with
    | nil => cases single
    | cons entry rest =>
        cases rest with
        | nil => exact ⟨entry, rfl⟩
        | cons _ _ => cases single
  simp only [branchesToPairs, List.map_cons, List.map_nil, List.cons.injEq, Prod.mk.injEq,
    and_true] at single
  obtain ⟨rfl, rfl⟩ := single
  cases query with
  | nil =>
      rw [lu_stem, lu_branch_nil]
      rfl
  | cons w query =>
      rw [lu_stem, lu_branch_cons, branchAt_cons]
      by_cases same : index = w
      · subst same
        rw [if_pos rfl, ← List.singleton_append, ListPrefix.dropPrefix?_append_self]
        rfl
      · rw [if_neg same, branchAt_nil, ListPrefix.dropPrefix?_eq_none_iff.mpr]
        · rfl
        exact fun isPrefix => same (List.cons_prefix_cons.mp isPrefix).1

/-- The outcome at a branch whose child at `kw` had `outcome`, as the continuations `myremove` and
`myupdate` of `alterM.aM` build it. -/
def liftBranch (vec : List (BranchEntry (Trie v))) (kw : UInt8) :
    Outcome α v → Outcome α v
  | .noChange res => .noChange res
  | .removed res =>
      match branchesToPairs (updateBranch kw none vec) with
      | [] => .removed res
      | [(i, x)] => .updated res [i] x
      | _ => .updated res [] (.branch (updateBranch kw none vec))
  | .updated res skey t' => .updated res [] (.branch (updateBranch kw (some (stemOver skey t')) vec))

/-- Lifted to its branch, an outcome at the child at `kw` replaces that child by its result. -/
theorem lookupIn_liftBranch {vec : List (BranchEntry (Trie v))} (ordered : Ordered vec)
    {kw : UInt8} {child : Trie v} (found : branchAt vec kw = some child) (outcome : Outcome α v)
    (query : List UInt8) :
    lookupIn ((liftBranch vec kw outcome).result (.branch vec)) query =
      lookupReplaced vec kw (outcome.result child) query := by
  cases outcome with
  | noChange res =>
      simp only [liftBranch, Outcome.result, lookupIn, Option.bind_some]
      cases query with
      | nil => simp [lookupReplaced]
      | cons w query =>
          rw [lu_branch_cons, lookupReplaced]
          split_ifs with same
          · rw [same, found]
            rfl
          · rfl
  | removed res =>
      simp only [Outcome.result]
      rw [← lu_updateBranch ordered kw none query]
      simp only [liftBranch]
      -- the branch left after dropping the child: empty, a single child, or still a branch
      cases pairs : branchesToPairs (updateBranch kw none vec) with
      | nil =>
          rw [List.map_eq_nil_iff.mp pairs]
          cases query with
          | nil => simp [lookupIn]
          | cons w query => simp [lookupIn, lu_branch_cons]
      | cons first others =>
          cases others with
          | nil =>
              simp only [lookupIn, Option.bind_some, stemOver_cons]
              exact lu_single_stem pairs query
          | cons second more =>
              simp only [lookupIn, Option.bind_some, stemOver_nil]
  | updated res skey t' =>
      simp only [liftBranch, Outcome.result, lookupIn, Option.bind_some, stemOver_nil]
      exact lu_updateBranch ordered kw _ query

/-- Replacing the child at `kw` by one that alters `key'` alters `kw :: key'` in the branch. -/
theorem lookupReplaced_alters {vec : List (BranchEntry (Trie v))} {kw : UInt8}
    {key' : List UInt8} {replacement : Option (Trie v)} {altered : Option v}
    (childLookups : ∀ query, lookupIn replacement query =
      if query = key' then altered else (branchAt vec kw).bind (lookupF.lu query))
    (query : List UInt8) :
    lookupReplaced vec kw replacement query =
      if query = kw :: key' then altered else lookupF.lu query (.branch vec) := by
  cases query with
  | nil => simp [lookupReplaced]
  | cons w query =>
      rw [lookupReplaced, lu_branch_cons]
      by_cases same : w = kw
      · rw [if_pos same, childLookups, same]
        simp only [List.cons.injEq, true_and]
      · rw [if_neg same, if_neg (fun equal => same (List.cons.inj equal).1)]

theorem res_liftBranch (vec : List (BranchEntry (Trie v))) (kw : UInt8) (outcome : Outcome α v) :
    (liftBranch vec kw outcome).res = outcome.res := by
  cases outcome with
  | noChange res => rfl
  | removed res =>
      simp only [liftBranch]
      split <;> rfl
  | updated res skey t' => rfl

theorem wellFormed_updl {vec : List (BranchEntry (Trie v))} {childLength : Nat}
    (wellFormed : WellFormed (childLength + 1) (.branch vec)) (kw : UInt8) {child : Trie v}
    (childWellFormed : WellFormed childLength child) :
    WellFormed (childLength + 1) (.branch (updateBranch kw (some child) vec)) := by
  obtain ⟨innerLength, sum, twoChildren, ordered, children⟩ := wellFormed.branch_inv
  obtain rfl : childLength = innerLength := Nat.succ_inj.mp sum
  refine .branch (Nat.le_trans twoChildren (length_updl kw child vec))
    (ordered_updateBranch kw (some child) ordered) ?_
  intro entry mem
  rcases mem_updl mem with new | old
  · rw [new]
    exact childWellFormed
  · exact children entry old

theorem wellFormed_liftBranch {vec : List (BranchEntry (Trie v))} {childLength : Nat}
    (wellFormed : WellFormed (childLength + 1) (.branch vec)) (kw : UInt8) {child : Trie v}
    {outcome : Outcome α v}
    (childWellFormed : ∀ t', outcome.result child = some t' → WellFormed childLength t') :
    ∀ t', (liftBranch vec kw outcome).result (.branch vec) = some t' →
      WellFormed (childLength + 1) t' := by
  obtain ⟨innerLength, sum, _, ordered, children⟩ := wellFormed.branch_inv
  obtain rfl : childLength = innerLength := Nat.succ_inj.mp sum
  have remaining : ∀ entry ∈ updateBranch kw none vec, WellFormed childLength entry.beBranch :=
    fun entry mem => children entry ((remove_sublist kw vec).subset mem)
  cases outcome with
  | noChange res =>
      intro t' result
      cases result
      exact wellFormed
  | removed res =>
      simp only [liftBranch]
      cases pairs : branchesToPairs (updateBranch kw none vec) with
      | nil =>
          intro t' result
          cases result
      | cons first others =>
          cases others with
          | nil =>
              -- a single child is left: it goes under a one-byte stem
              obtain ⟨i, x⟩ := first
              intro t' result
              cases result
              have single : (⟨i, x⟩ : BranchEntry (Trie v)) ∈ updateBranch kw none vec :=
                mem_branchesToPairs.mp (by rw [pairs]; exact List.mem_cons_self)
              exact wellFormed_stem (List.cons_ne_nil i []) (remaining _ single) (by simp; omega)
          | cons second more =>
              intro t' result
              cases result
              have twoLeft : 2 ≤ (updateBranch kw none vec).length := by
                have := congrArg List.length pairs
                simp only [branchesToPairs, List.length_map, List.length_cons] at this
                omega
              exact .branch twoLeft (ordered_updateBranch kw none ordered) remaining
  | updated res skey t' =>
      intro t'' result
      cases result
      exact wellFormed_updl wellFormed kw (childWellFormed _ rfl)

/-! ## One visit of a node -/

section Visits

variable (upd : Option v → α × Alteration v)

/-- What the recursion does at a value once the key is used up. -/
def tipOutcome (res : α) : Alteration v → Outcome α v
  | .insert value => .updated res [] (.tip value)
  | .remove => .removed res
  | .noChange => .noChange res

/-- At a value, with the key used up, the update function decides. -/
theorem alters_tip (value : v) {res : α} {alteration : Alteration v}
    (decided : upd (some value) = (res, alteration)) :
    Alters upd 0 [] (.tip value) (tipOutcome res alteration) where
  res := by
    rw [lu_tip_nil, decided]
    cases alteration <;> rfl
  lookups := by
    intro query
    rw [lu_tip_nil, decided]
    cases alteration <;> cases query <;>
      simp [tipOutcome, Outcome.result, lookupIn, stemOver_nil, lu_tip, Alteration.apply]
  wellFormed := by
    intro t' result
    cases alteration with
    | insert value' =>
        cases result
        exact .tip value'
    | remove => cases result
    | noChange =>
        cases result
        exact .tip value

/-- Where the key has no value, anything but an insertion leaves the subtrie as it is. -/
theorem alters_absent {length : Nat} {key : List UInt8} {t : Trie v}
    (wellFormed : WellFormed length t) (absent : lookupF.lu key t = none) {res : α}
    {alteration : Alteration v} (decided : upd none = (res, alteration))
    (notInsert : ∀ value, alteration = .insert value → False) :
    Alters upd length key t (.noChange res) where
  res := by rw [absent, decided]; rfl
  lookups := by
    intro query
    simp only [Outcome.result, lookupIn, Option.bind_some]
    split_ifs with same
    · rw [same, absent, decided]
      cases alteration with
      | insert value => exact absurd rfl (notInsert value)
      | remove => rfl
      | noChange => rfl
    · rfl
  wellFormed := by
    intro t' result
    cases result
    exact wellFormed

/-- A branch with no child for the key's next byte gets one holding the value. -/
theorem alters_branch_insert {childLength : Nat} {kw : UInt8} {key' : List UInt8}
    {vec : List (BranchEntry (Trie v))} (wellFormed : WellFormed (childLength + 1) (.branch vec))
    (keyLength : key'.length = childLength) (absent : branchAt vec kw = none) {res : α}
    {value : v} (decided : upd none = (res, .insert value)) :
    Alters upd (childLength + 1) (kw :: key') (.branch vec)
      (.updated res [] (.branch (updateBranch kw (some (stemOver key' (.tip value))) vec))) where
  res := by rw [lu_branch_cons, absent, Option.bind_none, decided]; rfl
  lookups := by
    obtain ⟨_, _, _, ordered, _⟩ := wellFormed.branch_inv
    have childLookups : ∀ query', lookupIn (some (stemOver key' (.tip value))) query' =
        if query' = key' then some value else (branchAt vec kw).bind (lookupF.lu query') := by
      intro query'
      simp only [lookupIn, Option.bind_some, lu_stemOver_tip, absent, Option.bind_none]
    intro query
    simp only [Outcome.result, lookupIn, Option.bind_some, stemOver_nil]
    rw [lu_updateBranch ordered, lookupReplaced_alters childLookups, lu_branch_cons, absent,
      Option.bind_none, decided]
    rfl
  wellFormed := by
    intro t' result
    cases result
    have newChild := wellFormed_stemOver key' (.tip value)
    rw [Nat.add_zero, keyLength] at newChild
    exact wellFormed_updl wellFormed kw newChild

/-- Below a branch's child at the key's next byte, the branch takes the child's outcome. -/
theorem alters_branch_child {childLength : Nat} {kw : UInt8} {key' : List UInt8}
    {vec : List (BranchEntry (Trie v))} (wellFormed : WellFormed (childLength + 1) (.branch vec))
    {child : Trie v} (found : branchAt vec kw = some child) {outcome : Outcome α v}
    (childAlters : Alters upd childLength key' child outcome) :
    Alters upd (childLength + 1) (kw :: key') (.branch vec) (liftBranch vec kw outcome) where
  res := by
    rw [res_liftBranch, childAlters.res, lu_branch_cons, found]
    rfl
  lookups := by
    obtain ⟨_, _, _, ordered, _⟩ := wellFormed.branch_inv
    have childLookups : ∀ query', lookupIn (outcome.result child) query' =
        if query' = key' then (upd (lookupF.lu key' child)).2.apply (lookupF.lu key' child)
        else (branchAt vec kw).bind (lookupF.lu query') := by
      intro query'
      rw [childAlters.lookups, found]
      rfl
    intro query
    rw [lookupIn_liftBranch ordered found, lookupReplaced_alters childLookups, lu_branch_cons,
      found]
    rfl
  wellFormed := wellFormed_liftBranch wellFormed kw childAlters.wellFormed

/-- Below a stem that starts the key, the stem takes the outcome below it. -/
theorem alters_stem_child {restLength : Nat} {pref key' : List UInt8} {rest : Trie v}
    (nonempty : pref ≠ []) (restWellFormed : WellFormed restLength rest)
    {outcome : Outcome α v} (restAlters : Alters upd restLength key' rest outcome) :
    Alters upd (pref.length + restLength) (pref ++ key') (.stem pref rest)
      (liftStem pref outcome) where
  res := by
    rw [lu_stem_append, ← restAlters.res]
    cases outcome <;> rfl
  lookups := by
    intro query
    rw [lookupIn_liftStem nonempty, lu_stem_append, lu_stem]
    cases stripped : query.dropPrefix? pref with
    | none =>
        have differ : query ≠ pref ++ key' := by
          intro same
          rw [same, ListPrefix.dropPrefix?_append_self] at stripped
          cases stripped
        rw [if_neg differ]
        rfl
    | some suffix =>
        rw [ListPrefix.dropPrefix?_eq_some_iff.mp stripped, Option.bind_some, Option.bind_some,
          restAlters.lookups]
        by_cases same : suffix = key'
        · rw [if_pos same, if_pos (by rw [same])]
        · rw [if_neg same, if_neg (fun equal => same (List.append_cancel_left equal))]
  wellFormed := by
    intro t' result
    cases outcome with
    | noChange res =>
        cases result
        exact .stem nonempty restWellFormed
    | removed res => cases result
    | updated res skey t'' =>
        cases result
        obtain ⟨innerLength, sum, innerWellFormed⟩ :=
          (restAlters.wellFormed _ rfl).of_stemOver
        obtain ⟨byte, more, rfl⟩ := List.exists_cons_of_ne_nil nonempty
        rw [List.cons_append, stemOver_cons]
        exact wellFormed_stem (List.cons_ne_nil _ _) innerWellFormed (by simp; omega)

/-- The lookups of the branch that splits a stem where a new key leaves it. -/
theorem lu_split {hr hk : UInt8} (differ : hk ≠ hr) (tr tk : List UInt8) (rest : Trie v)
    (value : v) (query : List UInt8) :
    lookupF.lu query (.branch (pairBranch (hr, stemOver tr rest) (hk, stemOver tk (.tip value)))) =
      if query = hk :: tk then some value
      else (query.dropPrefix? (hr :: tr)).bind (lookupF.lu · rest) := by
  cases query with
  | nil => simp [List.dropPrefix?]
  | cons c query =>
      rw [lu_branch_cons, branchAt_pairBranch (Ne.symm differ),
        ListPrefix.dropPrefix?_cons_cons]
      by_cases onRest : c = hr
      · rw [if_pos onRest, if_pos onRest, Option.bind_some, lu_stemOver,
          if_neg (fun same => differ ((List.cons.inj same).1.symm.trans onRest))]
      · rw [if_neg onRest, if_neg onRest, Option.bind_none]
        by_cases onKey : c = hk
        · rw [if_pos onKey, Option.bind_some, lu_stemOver_tip, onKey]
          simp only [List.cons.injEq, true_and]
        · rw [if_neg onKey, Option.bind_none, if_neg (fun same => onKey (List.cons.inj same).1)]

/-- A key that leaves a stem before the stem's end has no value below it. -/
theorem lu_stem_of_split {key pref pref' tk tr : List UInt8} {hk hr : UInt8} (rest : Trie v)
    (split : commonPrefix key pref = (pref', hk :: tk, hr :: tr)) :
    lookupF.lu key (.stem pref rest) = none := by
  obtain ⟨keySplit, prefSplit, differ⟩ := commonPrefix_spec key pref split
  rw [lu_stem, prefSplit, ListPrefix.dropPrefix?_append, keySplit,
    ListPrefix.dropPrefix?_append_self, Option.bind_some, ListPrefix.dropPrefix?_cons_cons,
    if_neg (differ hk tk hr tr rfl rfl)]
  rfl

/-- A stem that the key leaves before its end is split by a branch on the byte where they differ. -/
theorem alters_stem_split {length : Nat} {key pref pref' tk tr : List UInt8} {hk hr : UInt8}
    {rest : Trie v} (wellFormed : WellFormed length (.stem pref rest))
    (keyLength : key.length = length) (split : commonPrefix key pref = (pref', hk :: tk, hr :: tr))
    {res : α} {value : v} (decided : upd none = (res, .insert value)) :
    Alters upd length key (.stem pref rest)
      (.updated res pref'
        (.branch (pairBranch (hr, stemOver tr rest) (hk, stemOver tk (.tip value))))) := by
  obtain ⟨keySplit, prefSplit, differ⟩ := commonPrefix_spec key pref split
  have differ : hk ≠ hr := differ hk tk hr tr rfl rfl
  obtain ⟨restLength, sum, _, restWellFormed⟩ := wellFormed.stem_inv
  have lookups : ∀ query, lookupF.lu query (.stem pref rest) =
      (query.dropPrefix? pref').bind fun suffix =>
        (suffix.dropPrefix? (hr :: tr)).bind (lookupF.lu · rest) := by
    intro query
    rw [lu_stem, prefSplit, ListPrefix.dropPrefix?_append, Option.bind_assoc]
  have absent := lu_stem_of_split rest split
  refine ⟨by rw [absent, decided]; rfl, ?_, ?_⟩
  · intro query
    simp only [Outcome.result, lookupIn, Option.bind_some, lu_stemOver, absent, decided]
    rw [lookups]
    cases stripped : query.dropPrefix? pref' with
    | none =>
        have notKey : query ≠ key := by
          intro same
          rw [same, keySplit, ListPrefix.dropPrefix?_append_self] at stripped
          cases stripped
        rw [if_neg notKey]
        rfl
    | some suffix =>
        rw [ListPrefix.dropPrefix?_eq_some_iff.mp stripped, Option.bind_some, Option.bind_some,
          lu_split differ, keySplit]
        by_cases same : suffix = hk :: tk
        · rw [if_pos same, if_pos (by rw [same])]
          rfl
        · rw [if_neg same, if_neg (fun equal => same (List.append_cancel_left equal))]
  · intro t' result
    cases result
    have restBranch := wellFormed_stemOver tr restWellFormed
    have keyBranch := wellFormed_stemOver tk (.tip value)
    have lengths : tk.length + 0 = tr.length + restLength := by
      have keyLengths := keyLength
      rw [keySplit, sum, prefSplit] at keyLengths
      simp only [List.length_append, List.length_cons] at keyLengths
      omega
    rw [lengths] at keyBranch
    have branch : WellFormed (tr.length + restLength + 1)
        (.branch (pairBranch (hr, stemOver tr rest) (hk, stemOver tk (.tip value)))) := by
      refine .branch (by simp only [pairBranch]; split_ifs <;> simp)
        (ordered_pairBranch (Ne.symm differ) _ _) ?_
      intro entry mem
      rcases mem_pairBranch mem with first | second
      · rw [first]
        exact restBranch
      · rw [second]
        exact keyBranch
    have whole := wellFormed_stemOver pref' branch
    have total : pref'.length + (tr.length + restLength + 1) = length := by
      rw [sum, prefSplit]
      simp only [List.length_append, List.length_cons]
      omega
    rw [total] at whole
    exact whole

end Visits

/-! ## The whole recursion -/

/-- `alterM.aM` on a well-formed subtrie and a key of its length calls one of its continuations
with an outcome that alters the key alone; it reaches none of its errors. -/
theorem aM_spec {ζ : Type} (upd : Option v → α × Alteration v) (key : List UInt8) (t : Trie v)
    (nochange remove : α → Except String ζ) (update : α → List UInt8 → Trie v → Except String ζ) :
    ∀ {length : Nat}, WellFormed length t → key.length = length →
      ∃ outcome : Outcome α v,
        alterM.aM upd key t nochange remove update = outcome.run nochange remove update ∧
          Alters upd length key t outcome := by
  fun_induction alterM.aM upd key t nochange remove update with
  | case1 v0 nochange remove update res value decided =>
      intro length wellFormed _
      obtain rfl := wellFormed.tip_inv
      exact ⟨tipOutcome res (.insert value), rfl, alters_tip upd v0 decided⟩
  | case2 v0 nochange remove update res decided =>
      intro length wellFormed _
      obtain rfl := wellFormed.tip_inv
      exact ⟨tipOutcome res .remove, rfl, alters_tip upd v0 decided⟩
  | case3 v0 nochange remove update res decided =>
      intro length wellFormed _
      obtain rfl := wellFormed.tip_inv
      exact ⟨tipOutcome res .noChange, rfl, alters_tip upd v0 decided⟩
  | case4 key value nochange remove update nonempty =>
      -- "Key too long": a value is reached with bytes of the key left
      intro length wellFormed keyLength
      obtain rfl := wellFormed.tip_inv
      exact absurd (List.eq_nil_of_length_eq_zero keyLength) nonempty
  | case5 vec nochange remove update =>
      -- "Key too short": a branch is reached with the key used up
      intro length wellFormed keyLength
      obtain ⟨childLength, rfl, _⟩ := wellFormed.branch_inv
      cases keyLength
  | case6 kw key' vec nochange remove update absent res value decided =>
      intro length wellFormed keyLength
      obtain ⟨childLength, rfl, _⟩ := wellFormed.branch_inv
      refine ⟨.updated res [] (.branch (updateBranch kw (some (stemOver key' (.tip value))) vec)),
        ?_, alters_branch_insert upd wellFormed (Nat.succ_inj.mp keyLength) absent decided⟩
      simp +zetaDelta only [dite_eq_ite, ite_isEmpty_eq_stemOver]
      rfl
  | case7 kw key' vec nochange remove update absent res alteration notInsert decided =>
      intro length wellFormed _
      exact ⟨.noChange res, rfl, alters_absent upd wellFormed
        (by rw [lu_branch_cons, absent]; rfl) decided notInsert⟩
  | case8 kw key' vec nochange remove update child found myupdate myremove =>
      rename_i inductionHypothesis
      intro length wellFormed keyLength
      obtain ⟨childLength, rfl, _, _, children⟩ := wellFormed.branch_inv
      obtain ⟨outcome, ran, childAlters⟩ := inductionHypothesis
        (children ⟨kw, child⟩ (mem_of_branchAt_eq_some found)) (Nat.succ_inj.mp keyLength)
      refine ⟨liftBranch vec kw outcome, ?_, alters_branch_child upd wellFormed found childAlters⟩
      rw [ran]
      -- the continuations `myremove` and `myupdate` build the lifted outcome
      simp only [myremove, myupdate]
      cases outcome with
      | noChange res => rfl
      | removed res =>
          simp only [Outcome.run, liftBranch]
          cases pairs : branchesToPairs (updateBranch kw none vec) with
          | nil => rfl
          | cons first others =>
              cases others with
              | nil => rfl
              | cons second more => rfl
      | updated res skey t' =>
          cases skey <;> rfl
  | case9 key pref rest nochange remove update common key' split inductionHypothesis =>
      intro length wellFormed keyLength
      obtain ⟨keySplit, prefSplit, _⟩ := commonPrefix_spec key pref split
      rw [List.append_nil] at prefSplit
      subst keySplit prefSplit
      obtain ⟨restLength, rfl, nonempty, restWellFormed⟩ := wellFormed.stem_inv
      obtain ⟨outcome, ran, restAlters⟩ :=
        inductionHypothesis restWellFormed (by simpa using keyLength)
      refine ⟨liftStem pref outcome, ?_, alters_stem_child upd nonempty restWellFormed restAlters⟩
      rw [ran]
      cases outcome <;> rfl
  | case10 key pref rest nochange remove update common byte more split =>
      -- "Key too short": the key ends inside a stem
      intro length wellFormed keyLength
      obtain ⟨keySplit, prefSplit, _⟩ := commonPrefix_spec key pref split
      obtain ⟨restLength, sum, _, _⟩ := wellFormed.stem_inv
      rw [keySplit, List.append_nil] at keyLength
      rw [prefSplit] at sum
      simp only [List.length_append, List.length_cons] at sum
      omega
  | case11 key pref rest nochange remove update pref' hk tk hr tr split res value decided =>
      intro length wellFormed keyLength
      refine ⟨.updated res pref'
          (.branch (pairBranch (hr, stemOver tr rest) (hk, stemOver tk (.tip value)))), ?_,
        alters_stem_split upd wellFormed keyLength split decided⟩
      simp +zetaDelta only [dite_eq_ite, ite_isEmpty_eq_stemOver]
      rfl
  | case12 key pref rest nochange remove update pref' hk tk hr tr split res alteration notInsert
      decided =>
      intro length wellFormed _
      exact ⟨.noChange res, rfl,
        alters_absent upd wellFormed (lu_stem_of_split rest split) decided notInsert⟩

/-- `alterM` on a well-formed trie and a key of its length returns the update function's result
and the altered trie, `none` when it is empty. -/
theorem alterM_spec [FixedTrieKey k] (key : k) (upd : Option v → α × Alteration v)
    {length : Nat} {t : Trie v} (wellFormed : WellFormed length t)
    (keyLength : (unpackKey key).length = length) :
    ∃ outcome : Outcome α v, alterM key upd t = .ok (outcome.res, outcome.result t) ∧
      Alters upd length (unpackKey key) t outcome := by
  obtain ⟨outcome, ran, alters⟩ := aM_spec upd (unpackKey key) t _ _ _ wellFormed keyLength
  refine ⟨outcome, ?_, alters⟩
  rw [alterM, ran]
  cases outcome with
  | noChange res => rfl
  | removed res => rfl
  | updated res skey t' => cases skey <;> rfl

end Concordium.GlobalState.Persistent.Trie
