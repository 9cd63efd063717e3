import Mathlib.Data.Finset.Sort
import Mathlib.Data.Finset.Lattice.Fold
import Mathlib.Order.Bounds.Basic

/-!
Contract: finitely many members, each due at a time, from which the members due by a time are
taken out earliest first; the abstract view of a schedule of releases, timers or deadlines.

Owns:
- `TimedSet`, with `set` (a member joins, or moves, at a time), `erase`, `dropUntil` (the
  members due by a time leave), `times`, `membersAt`, `groupAt` (the members due at one time under
  a reference, as a map from times to groups holds them), `first` (the earliest time, `⊤` when
  there is none) and `listUntil` (the members due by a time, earliest time first and, at one
  time, in the order of their references);
- one `groupAt` equation per change (`groupAt_set_of_notMem`, `groupAt_erase`,
  `groupAt_dropUntil`) and `first_set`;
- the step of a loop that takes out the earliest group while it is due: from the earliest time
  (`IsLeast` of `times`, read off a map's least key by `isLeast_of_groupAt`), `first_of_isLeast`,
  `listUntil_of_isLeast_le`, `groupAt_dropUntil_isLeast` and `card_dropUntil_isLeast`, and, where
  nothing is due (`lt_time_of_isLeast`, `lt_time_of_lt_first`), `listUntil_eq_nil` and
  `dropUntil_eq_self`;
- `listUntil_map_perm`: the listings under two references differ only in the order of members
  due at one time.

Does not own: any representation of the set, or the order in which a map stores its groups.
-/

set_option autoImplicit false

/-- Finitely many members, each due at a time; the time of a non-member is never read. -/
structure TimedSet (α τ : Type) where
  members : Finset α
  time : α → τ

namespace TimedSet

variable {α ρ σ τ : Type} [LinearOrder τ]

/-- The members due by `moment` leave. -/
def dropUntil (moment : τ) (s : TimedSet α τ) : TimedSet α τ :=
  ⟨s.members.filter fun member => moment < s.time member, s.time⟩

/-- The times at which some member is due. -/
def times (s : TimedSet α τ) : Finset τ :=
  s.members.image s.time

/-- The members due at `moment`. -/
def membersAt (s : TimedSet α τ) (moment : τ) : Finset α :=
  s.members.filter fun member => s.time member = moment

/-- The members due at `moment` under the reference `ref`, or nothing where none is due: what a
map from times to groups of members holds at `moment`. -/
def groupAt [DecidableEq ρ] (ref : α → ρ) (s : TimedSet α τ) (moment : τ) : Option (Finset ρ) :=
  if (s.membersAt moment).Nonempty then some ((s.membersAt moment).image ref) else none

/-- The members due by `moment`, under `ref`: earliest time first and, at one time, in the order
of `ref`. -/
def listUntil [LinearOrder ρ] (ref : α → ρ) (moment : τ) (s : TimedSet α τ) : List ρ :=
  ((s.times.filter fun due => due ≤ moment).sort (· ≤ ·)).flatMap fun due =>
    ((s.membersAt due).image ref).sort (· ≤ ·)

section Top

variable [OrderTop τ]

def empty : TimedSet α τ :=
  ⟨∅, fun _ => ⊤⟩

/-- The earliest time at which a member is due, `⊤` when there is no member. -/
def first (s : TimedSet α τ) : τ :=
  s.members.inf s.time

end Top

section Change

variable [DecidableEq α]

/-- `member` joins at `moment`, or moves there if it is a member already. -/
def set (moment : τ) (member : α) (s : TimedSet α τ) : TimedSet α τ :=
  ⟨insert member s.members, Function.update s.time member moment⟩

/-- `member` leaves. -/
def erase (member : α) (s : TimedSet α τ) : TimedSet α τ :=
  ⟨s.members.erase member, s.time⟩

end Change

/-! ## Members at a time -/

variable {s : TimedSet α τ}

theorem mem_membersAt {moment : τ} {member : α} :
    member ∈ s.membersAt moment ↔ member ∈ s.members ∧ s.time member = moment :=
  Finset.mem_filter

theorem mem_times_iff_nonempty (moment : τ) : moment ∈ s.times ↔ (s.membersAt moment).Nonempty :=
  Finset.fiber_nonempty_iff_mem_image.symm

theorem membersAt_dropUntil (moment query : τ) :
    (s.dropUntil moment).membersAt query = if query ≤ moment then ∅ else s.membersAt query := by
  ext member
  simp only [mem_membersAt, dropUntil, Finset.mem_filter]
  split_ifs with early
  · simp only [Finset.notMem_empty, iff_false, not_and]
    rintro ⟨_, later⟩ rfl
    exact absurd early (not_le.mpr later)
  · rw [mem_membersAt]
    constructor
    · rintro ⟨⟨present, _⟩, atQuery⟩
      exact ⟨present, atQuery⟩
    · rintro ⟨present, rfl⟩
      exact ⟨⟨present, not_le.mp early⟩, rfl⟩

theorem times_dropUntil (moment : τ) :
    (s.dropUntil moment).times = s.times.filter fun due => moment < due :=
  Finset.filter_image.symm

theorem dropUntil_eq_self {moment : τ} (notDue : ∀ member ∈ s.members, moment < s.time member) :
    s.dropUntil moment = s := by
  show (⟨s.members.filter fun member => moment < s.time member, s.time⟩ : TimedSet α τ) = s
  rw [Finset.filter_true_of_mem notDue]

theorem dropUntil_dropUntil {earlier later : τ} (ordered : earlier ≤ later) :
    (s.dropUntil earlier).dropUntil later = s.dropUntil later := by
  have bothDue : ((s.members.filter fun member => earlier < s.time member).filter
      fun member => later < s.time member) = s.members.filter fun member => later < s.time member := by
    rw [Finset.filter_filter]
    exact Finset.filter_congr fun member _ =>
      ⟨And.right, fun due => ⟨lt_of_le_of_lt ordered due, due⟩⟩
  simp only [dropUntil, TimedSet.mk.injEq, and_true]
  exact bothDue

section Change

variable [DecidableEq α]

theorem membersAt_set_of_notMem {member : α} (absent : member ∉ s.members) (moment query : τ) :
    (s.set moment member).membersAt query =
      if query = moment then insert member (s.membersAt query) else s.membersAt query := by
  ext other
  rw [mem_membersAt]
  by_cases same : other = member
  · subst same
    by_cases atMoment : query = moment
    · simp [set, mem_membersAt, absent, atMoment]
    · simp [set, mem_membersAt, absent, atMoment, Ne.symm atMoment]
  · have unchanged : Function.update s.time member moment other = s.time other :=
      Function.update_of_ne same _ _
    show other ∈ insert member s.members ∧ Function.update s.time member moment other = query ↔ _
    rw [unchanged, Finset.mem_insert, or_iff_right same]
    split_ifs <;> simp [mem_membersAt, same]

theorem membersAt_erase (member : α) (query : τ) :
    (s.erase member).membersAt query = (s.membersAt query).erase member :=
  Finset.filter_erase _ _ _

omit [LinearOrder τ] in
/-- A member that moves leaves its old time first. -/
theorem set_eq_set_erase {member : α} (present : member ∈ s.members) (moment : τ) :
    s.set moment member = (s.erase member).set moment member := by
  show (⟨insert member s.members, _⟩ : TimedSet α τ) = ⟨insert member (s.members.erase member), _⟩
  rw [Finset.insert_erase present, Finset.insert_eq_of_mem present]
  rfl

end Change

/-! ## Groups -/

section Groups

variable [DecidableEq ρ]

theorem getD_groupAt (ref : α → ρ) (moment : τ) :
    (s.groupAt ref moment).getD ∅ = (s.membersAt moment).image ref := by
  unfold groupAt
  split_ifs with nonempty
  · rfl
  · rw [Finset.not_nonempty_iff_eq_empty.mp nonempty, Finset.image_empty]
    rfl

theorem isSome_groupAt_iff (ref : α → ρ) (moment : τ) :
    (s.groupAt ref moment).isSome ↔ moment ∈ s.times := by
  rw [mem_times_iff_nonempty]
  unfold groupAt
  split_ifs with nonempty <;> simp [nonempty]

theorem groupAt_dropUntil (ref : α → ρ) (moment query : τ) :
    (s.dropUntil moment).groupAt ref query =
      if query ≤ moment then none else s.groupAt ref query := by
  unfold groupAt
  rw [membersAt_dropUntil]
  split_ifs with early <;> simp_all

/-- The least key of a map from times to groups is the earliest time. -/
theorem isLeast_of_groupAt (ref : α → ρ) {earliest : τ} (found : (s.groupAt ref earliest).isSome)
    (below : ∀ query, (s.groupAt ref query).isSome → earliest ≤ query) :
    IsLeast (s.times : Set τ) earliest := by
  refine ⟨(isSome_groupAt_iff ref earliest).mp found, fun due listed => ?_⟩
  exact below due ((isSome_groupAt_iff ref due).mpr listed)

/-- Taking out the earliest group leaves every other group as it was. -/
theorem groupAt_dropUntil_isLeast (ref : α → ρ) {earliest : τ}
    (least : IsLeast (s.times : Set τ) earliest) (query : τ) :
    (s.dropUntil earliest).groupAt ref query =
      if query = earliest then none else s.groupAt ref query := by
  rw [groupAt_dropUntil]
  by_cases same : query = earliest
  · rw [if_pos (le_of_eq same), if_pos same]
  · rw [if_neg same]
    split_ifs with early
    · -- nothing is due before the earliest time
      have notListed : query ∉ s.times := fun listed =>
        absurd (lt_of_le_of_ne early same) (not_lt.mpr (least.2 listed))
      rw [← isSome_groupAt_iff ref] at notListed
      exact (Option.not_isSome_iff_eq_none.mp notListed).symm
    · rfl

theorem members_eq_empty_of_groupAt (ref : α → ρ) (absent : ∀ query, s.groupAt ref query = none) :
    s.members = ∅ := by
  apply Finset.eq_empty_of_forall_notMem
  intro member present
  have listed : s.time member ∈ s.times := Finset.mem_image_of_mem s.time present
  rw [← isSome_groupAt_iff ref, absent] at listed
  exact absurd listed Bool.false_ne_true

theorem groupAt_empty [OrderTop τ] (ref : α → ρ) (query : τ) :
    (empty : TimedSet α τ).groupAt ref query = none :=
  rfl

variable [DecidableEq α]

theorem groupAt_set_of_notMem (ref : α → ρ) {member : α} (absent : member ∉ s.members)
    (moment query : τ) :
    (s.set moment member).groupAt ref query =
      if query = moment then some (insert (ref member) ((s.membersAt moment).image ref))
      else s.groupAt ref query := by
  unfold groupAt
  rw [membersAt_set_of_notMem absent]
  by_cases same : query = moment
  · subst same
    simp [Finset.image_insert]
  · simp only [if_neg same]

/-- Where `ref` tells members apart, a member's leaving takes its reference out of its group,
and the group goes once it is empty. -/
theorem groupAt_erase {ref : α → ρ} (injective : Function.Injective ref) (member : α)
    (query : τ) :
    (s.erase member).groupAt ref query =
      if query = s.time member then
        (if (((s.membersAt query).image ref).erase (ref member)).Nonempty then
          some (((s.membersAt query).image ref).erase (ref member))
        else none)
      else s.groupAt ref query := by
  unfold groupAt
  by_cases same : query = s.time member
  · rw [if_pos same, membersAt_erase, ← Finset.image_erase injective]
    simp only [Finset.image_nonempty]
  · have notAt : member ∉ s.membersAt query := fun present =>
      same (mem_membersAt.mp present).2.symm
    rw [if_neg same, membersAt_erase, Finset.erase_eq_of_notMem notAt]

end Groups

/-! ## The earliest time -/

/-- Before the earliest time no member is due. -/
theorem lt_time_of_isLeast {earliest moment : τ} (least : IsLeast (s.times : Set τ) earliest)
    (early : moment < earliest) {member : α} (present : member ∈ s.members) :
    moment < s.time member :=
  lt_of_lt_of_le early (least.2 (Finset.mem_image_of_mem s.time present))

section Top

variable [OrderTop τ]

theorem first_of_isLeast {earliest : τ} (least : IsLeast (s.times : Set τ) earliest) :
    s.first = earliest := by
  obtain ⟨listed, lowest⟩ := least
  obtain ⟨member, present, atEarliest⟩ := Finset.mem_image.mp listed
  apply le_antisymm
  · rw [← atEarliest]
    exact Finset.inf_le present
  · apply Finset.le_inf
    intro other present'
    exact lowest (Finset.mem_image_of_mem s.time present')

theorem lt_time_of_lt_first {moment : τ} (below : moment < s.first) {member : α}
    (present : member ∈ s.members) : moment < s.time member :=
  lt_of_lt_of_le below (Finset.inf_le present)

theorem first_of_members_eq_empty (absent : s.members = ∅) : s.first = ⊤ := by
  rw [first, absent, Finset.inf_empty]

/-- A member joining, or moving no later than it was due, brings the earliest time down to its
own if that is earlier. -/
theorem first_set [DecidableEq α] {member : α} (moment : τ)
    (earlier : member ∈ s.members → moment ≤ s.time member) :
    (s.set moment member).first = min s.first moment := by
  have others : (s.members.erase member).inf (Function.update s.time member moment) =
      (s.members.erase member).inf s.time :=
    Finset.inf_congr rfl fun other listed =>
      Function.update_of_ne (Finset.ne_of_mem_erase listed) _ _
  show (insert member s.members).inf (Function.update s.time member moment) =
    min (s.members.inf s.time) moment
  rw [Finset.inf_insert, Function.update_self]
  by_cases present : member ∈ s.members
  · -- the member's old time is no earlier than its new one, so only the others count
    rw [← Finset.insert_erase present, Finset.inf_insert, Finset.inf_insert, others,
      Function.update_self, ← min_assoc, min_self, min_comm (s.time _),
      min_assoc, min_eq_right (earlier present), min_comm]
  · rw [← Finset.erase_eq_of_notMem present, others, min_comm]

end Top

/-! ## Listings -/

section Listings

variable [LinearOrder ρ]

theorem listUntil_eq_nil (ref : α → ρ) {moment : τ}
    (notDue : ∀ member ∈ s.members, moment < s.time member) : s.listUntil ref moment = [] := by
  have noneDue : (s.times.filter fun due => due ≤ moment) = ∅ := by
    apply Finset.filter_false_of_mem
    intro due listed
    obtain ⟨member, present, rfl⟩ := Finset.mem_image.mp listed
    exact not_le.mpr (notDue member present)
  rw [listUntil, noneDue, Finset.sort_empty, List.flatMap_nil]

/-- One step of taking out the earliest group while it is due. -/
theorem listUntil_of_isLeast_le (ref : α → ρ) {earliest moment : τ}
    (least : IsLeast (s.times : Set τ) earliest) (due : earliest ≤ moment) :
    s.listUntil ref moment = ((s.membersAt earliest).image ref).sort (· ≤ ·) ++
      (s.dropUntil earliest).listUntil ref moment := by
  obtain ⟨listed, lowest⟩ := least
  have later : ∀ time ∈ ((s.dropUntil earliest).times.filter fun due => due ≤ moment),
      earliest < time := by
    intro time present
    rw [Finset.mem_filter, times_dropUntil, Finset.mem_filter] at present
    exact present.1.2
  have split : (s.times.filter fun time => time ≤ moment) =
      insert earliest ((s.dropUntil earliest).times.filter fun time => time ≤ moment) := by
    ext time
    rw [Finset.mem_insert, Finset.mem_filter, Finset.mem_filter, times_dropUntil,
      Finset.mem_filter]
    constructor
    · rintro ⟨present, byMoment⟩
      rcases eq_or_lt_of_le (lowest present) with same | above
      · exact .inl same.symm
      · exact .inr ⟨⟨present, above⟩, byMoment⟩
    · rintro (rfl | ⟨⟨present, _⟩, byMoment⟩)
      · exact ⟨listed, due⟩
      · exact ⟨present, byMoment⟩
  rw [listUntil, split, Finset.sort_insert (· ≤ ·) (fun time present => le_of_lt (later time present))
    (fun present => lt_irrefl earliest (later earliest present)), List.flatMap_cons, listUntil]
  congr 1
  apply List.flatMap_congr
  intro time present
  rw [membersAt_dropUntil, if_neg (not_le.mpr (later time ((Finset.mem_sort _).mp present)))]

theorem card_dropUntil_isLeast {earliest : τ} (least : IsLeast (s.times : Set τ) earliest) :
    (s.dropUntil earliest).members.card + (s.membersAt earliest).card = s.members.card := by
  have atEarliest : s.membersAt earliest =
      s.members.filter fun member => ¬ earliest < s.time member := by
    apply Finset.filter_congr
    intro member present
    have lower : earliest ≤ s.time member := least.2 (Finset.mem_image_of_mem s.time present)
    exact ⟨fun same => not_lt.mpr (le_of_eq same),
      fun notLater => le_antisymm (not_lt.mp notLater) lower⟩
  rw [atEarliest]
  exact Finset.card_filter_add_card_filter_not _

/-- Listings under two references differ only in the order of members due at one time. -/
theorem listUntil_map_perm [LinearOrder σ] (ref : α → ρ) {view : ρ → σ}
    (injective : Function.Injective view) (moment : τ) :
    ((s.listUntil ref moment).map view).Perm (s.listUntil (view ∘ ref) moment) := by
  rw [listUntil, listUntil, List.map_flatMap]
  apply List.Perm.flatMap_left
  intro due _
  rw [← Finset.image_image]
  apply (List.perm_ext_iff_of_nodup (List.Nodup.map injective (Finset.sort_nodup _ _))
    (Finset.sort_nodup _ _)).mpr
  intro reference
  rw [List.mem_map, Finset.mem_sort, Finset.mem_image]
  simp only [Finset.mem_sort]

end Listings

end TimedSet
