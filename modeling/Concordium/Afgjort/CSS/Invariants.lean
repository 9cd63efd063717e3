import Concordium.Afgjort.CSS.State

/-!
Contract: the invariants of the core-set-selection state machine of
`Concordium.Afgjort.CSS.State`, in the form the code maintains them, in every state a run of
`receiveCSSMessage`, `justifyChoice` and `finishReporting` reaches from `initialCSSState`.

Owns:
- `Grows`: the justified choices, the inputs and who saw each nomination only grow, under which
  `sawJustified` and `ManySawBy` stay true; `OnlyReports`: a change of the done-reportings and the
  core set only;
- `Invariant`: the nominations of `iSaw` are justified inputs, at most one a party, and weigh
  `iSawWeight`; `manySaw` holds exactly the parties whose justified nomination enough parties
  saw; a waiting done-reporting waits on a nomination not seen justified from its sender, all
  its earlier nominations being so; the core set is chosen once the justified done-reportings
  weigh enough; and every justified done-reporting was sent and has all its nominations seen
  justified. While a nomination's justification is being processed, `manySawExempt` and
  `pendingExempt` name the nominations that may still break two of these parts;
- one lemma per handler, saying what it keeps and which exemptions it settles; the step and run
  lemmas, and what they give for every run from `initialCSSState`.

Does not own: the handlers (`Concordium.Afgjort.CSS.State`).

## Where the documented invariants differ

The source documents that `p` is in `_manySaw` exactly when, for some choice, enough parties
saw a nomination `s` of it, and that no key of `_unjustifiedDoneReporting` has a justified
input. The code keeps the first for `p`'s own nomination, and the second for each waiting party
only: a key whose input is justified keeps the parties not yet seen to see it. And the core set,
chosen when adding a party first brings the justified done-reportings to
`totalWeight - corruptWeight`, is not there before any party is added; with the corrupt weight
below a third of the total, as the source requires, that threshold is positive, so the core set
is there whenever the justified done-reportings reach it (`Invariant.core_set_of_weight`).

Weights add as `VoterPower` words: for an instance whose parties' weights together fit a word
(`WeightsFit`), `iSawWeight` and the weights of who saw each nomination are their exact sums.
-/

set_option autoImplicit false

namespace Concordium.Afgjort.CSS

variable {sig : Type}

theorem sawJustified_eq_true {q : Nat} {c : Bool} {s : Nat} {st : CSSState sig} :
    sawJustified q c s st = true ↔
      st.justified c = true ∧ ((st.input c).lookup s).isSome = true ∧
        ∃ m, (st.saw c).lookup s = some m ∧ m.member q = true := by
  unfold sawJustified
  cases (st.saw c).lookup s <;> simp [and_assoc]

/-! ## How states change -/

/-- From `st` to `st'` the justified choices, the inputs and who saw each nomination only grow,
and so do the weights of those who saw it; a chosen core set stays. -/
structure Grows (st st' : CSSState sig) : Prop where
  justified : ∀ c, st.justified c = true → st'.justified c = true
  input : ∀ c p, ((st.input c).lookup p).isSome = true → ((st'.input c).lookup p).isSome = true
  saw : ∀ c p ps, (st.saw c).lookup p = some ps →
    ∃ ps', (st'.saw c).lookup p = some ps' ∧ ps.weight ≤ ps'.weight ∧
      ∀ q, ps.member q = true → ps'.member q = true
  core : ∀ cs, st.core = some cs → st'.core = some cs

theorem Grows.refl (st : CSSState sig) : Grows st st :=
  ⟨fun _ holds => holds, fun _ _ holds => holds,
    fun _ _ ps found => ⟨ps, found, le_rfl, fun _ holds => holds⟩, fun _ set => set⟩

theorem Grows.trans {st1 st2 st3 : CSSState sig} (first : Grows st1 st2)
    (second : Grows st2 st3) : Grows st1 st3 where
  justified c holds := second.justified c (first.justified c holds)
  input c p holds := second.input c p (first.input c p holds)
  saw c p ps found := by
    obtain ⟨middle, middleFound, middleWeight, middleMembers⟩ := first.saw c p ps found
    obtain ⟨last, lastFound, lastWeight, lastMembers⟩ := second.saw c p middle middleFound
    exact ⟨last, lastFound, le_trans middleWeight lastWeight,
      fun q member => lastMembers q (middleMembers q member)⟩
  core cs set := second.core cs (first.core cs set)

theorem Grows.sawJustified {st st' : CSSState sig} (grows : Grows st st') {q : Nat} {c : Bool}
    {s : Nat} (seen : sawJustified q c s st = true) : sawJustified q c s st' = true := by
  obtain ⟨justified, input, m, found, member⟩ := sawJustified_eq_true.mp seen
  obtain ⟨m', found', -, members⟩ := grows.saw c s m found
  exact sawJustified_eq_true.mpr
    ⟨grows.justified c justified, grows.input c s input, m', found', members q member⟩

/-- `st'` differs from `st` at most in the waiting and justified done-reportings, and in a core
set chosen where there was none. -/
structure OnlyReports (st st' : CSSState sig) : Prop where
  justified : st'.justified = st.justified
  input : st'.input = st.input
  saw : st'.saw = st.saw
  iSaw : st'.iSaw = st.iSaw
  iSawWeight : st'.iSawWeight = st.iSawWeight
  manySaw : st'.manySaw = st.manySaw
  core : ∀ cs, st.core = some cs → st'.core = some cs

theorem OnlyReports.refl (st : CSSState sig) : OnlyReports st st :=
  ⟨rfl, rfl, rfl, rfl, rfl, rfl, fun _ set => set⟩

theorem OnlyReports.trans {st1 st2 st3 : CSSState sig} (first : OnlyReports st1 st2)
    (second : OnlyReports st2 st3) : OnlyReports st1 st3 :=
  ⟨second.justified.trans first.justified, second.input.trans first.input,
    second.saw.trans first.saw, second.iSaw.trans first.iSaw,
    second.iSawWeight.trans first.iSawWeight, second.manySaw.trans first.manySaw,
    fun cs set => second.core cs (first.core cs set)⟩

/-- A change of fields `Grows` does not read, with a chosen core set kept. -/
theorem Grows.of_same {st st' : CSSState sig} (justified : st'.justified = st.justified)
    (input : st'.input = st.input) (saw : st'.saw = st.saw)
    (core : ∀ cs, st.core = some cs → st'.core = some cs) : Grows st st' where
  justified c holds := by
    rw [justified]
    exact holds
  input c p holds := by
    rw [input]
    exact holds
  saw c p ps found := ⟨ps, by rw [saw]; exact found, le_rfl, fun _ member => member⟩
  core := core

theorem OnlyReports.grows {st st' : CSSState sig} (only : OnlyReports st st') : Grows st st' :=
  Grows.of_same only.justified only.input only.saw only.core

/-- A change of the done-reportings, and of a core set where there was none. -/
theorem OnlyReports.update (st : CSSState sig)
    (pending : Nat × Bool → Option (AscMap Nat (Waiting sig)))
    (justifiedDone : PartyMap (DoneReportingDetails sig)) {core : Option NominationSet}
    (kept : ∀ cs, st.core = some cs → core = some cs) :
    OnlyReports st { st with
      unjustifiedDoneReporting := pending, justifiedDoneReporting := justifiedDone, core := core } :=
  ⟨rfl, rfl, rfl, rfl, rfl, rfl, kept⟩

/-- `sawJustified q c s` reads `c` being justified, `s`'s input of `c`, and whether `q` saw it. -/
theorem sawJustified_congr {st st' : CSSState sig} {q : Nat} {c : Bool} {s : Nat}
    (justified : st'.justified c = st.justified c)
    (input : ((st'.input c).lookup s).isSome = ((st.input c).lookup s).isSome)
    (saw : ((st'.saw c).lookup s).any (PartySet.member q) =
      ((st.saw c).lookup s).any (PartySet.member q)) :
    sawJustified q c s st' = sawJustified q c s st := by
  unfold CSS.sawJustified
  rw [justified, input]
  cases found' : (st'.saw c).lookup s <;> cases found : (st.saw c).lookup s <;>
    simp_all

/-! ## The invariant -/

section Invariant

variable (inst : CSSInstance)

/-- The condition of `manySaw` for `p` and the choice `c`: `p`'s nomination of `c` is a justified
input, and the parties that saw it weigh at least `totalWeight - corruptWeight`. -/
def ManySawBy (st : CSSState sig) (p : Nat) (c : Bool) : Prop :=
  st.justified c = true ∧ ((st.input c).lookup p).isSome = true ∧
    ∃ ps, (st.saw c).lookup p = some ps ∧ inst.totalWeight - inst.corruptWeight ≤ ps.weight

/-- `q` sent the done-reporting `drd`. -/
def Sent (received : List (CSSInput sig)) (q : Nat) (drd : DoneReportingDetails sig) : Prop :=
  CSSInput.receiveCSSMessage q (.doneReporting drd.nominations) drd.signature ∈ received

/-- `handleDoneReporting q nominations drd` may be called: `q` sent `drd`, and the nominations of
`drd` before `nominations` are seen justified from `q`. -/
def ReadyToHandle (received : List (CSSInput sig)) (st : CSSState sig) (q : Nat)
    (nominations : List (Nat × Bool)) (drd : DoneReportingDetails sig) : Prop :=
  (∃ done, nominationSetToList drd.nominations = done ++ nominations ∧
    ∀ x ∈ done, sawJustified q x.2 x.1 st = true) ∧ Sent received q drd

/-- The parties of a nomination set. -/
def nominatedParties (ns : NominationSet) : Finset Nat :=
  ((nominationSetToList ns).map Prod.fst).toFinset

theorem mem_nominatedParties {p : Nat} {ns : NominationSet} :
    p ∈ nominatedParties ns ↔
      BitSet.member p ns.nomTop = true ∨ BitSet.member p ns.nomBot = true := by
  simp [nominatedParties, nominationSetToList, BitSet.mem_toList]

theorem nominatedParties_addNomination (src : Nat) (c : Bool) (ns : NominationSet) :
    nominatedParties (addNomination src c ns) = insert src (nominatedParties ns) := by
  ext p
  rw [Finset.mem_insert, mem_nominatedParties, mem_nominatedParties]
  cases c <;> simp [addNomination, @eq_comm _ src, or_comm, or_left_comm, or_assoc]

/-- The invariants of the CSS state, two parts of which may fail for the nominations that are
exempt while their justification is processed. -/
structure Invariant (received : List (CSSInput sig)) (manySawExempt : Set (Nat × Bool))
    (pendingExempt : Set (Nat × Bool × Nat)) (st : CSSState sig) : Prop where
  /-- Each nomination of `iSaw` is a justified input. -/
  iSaw_justified : ∀ p c, (p, c) ∈ nominationSetToList st.iSaw →
    st.justified c = true ∧ ((st.input c).lookup p).isSome = true
  /-- `iSaw` has at most one nomination of each party. -/
  iSaw_unique : ∀ p, ¬(BitSet.member p st.iSaw.nomTop = true ∧ BitSet.member p st.iSaw.nomBot = true)
  iSawWeight_eq : st.iSawWeight = ∑ p ∈ nominatedParties st.iSaw, inst.partyWeight p
  manySaw_sound : ∀ p, st.manySaw.member p = true → ∃ c, ManySawBy inst st p c
  manySaw_complete : ∀ p c, ManySawBy inst st p c → (p, c) ∉ manySawExempt →
    st.manySaw.member p = true
  /-- A waiting done-reporting waits on the nomination it is filed under, and is ready to be
  handled from there on once that nomination is seen justified. -/
  pending_waits : ∀ s c m, st.unjustifiedDoneReporting (s, c) = some m →
    ∀ q entry, m.lookup q = some entry → ReadyToHandle received st q ((s, c) :: entry.1) entry.2
  pending_unjustified : ∀ s c m, st.unjustifiedDoneReporting (s, c) = some m →
    ∀ q entry, m.lookup q = some entry → (s, c, q) ∉ pendingExempt → sawJustified q c s st = false
  core_set : (∃ q, st.justifiedDoneReporting.member q = true) →
    inst.totalWeight - inst.corruptWeight ≤ st.justifiedDoneReporting.weight → st.core.isSome
  justified_done : ∀ q drd, st.justifiedDoneReporting.partyMap.lookup q = some drd →
    ReadyToHandle received st q [] drd
  /-- Who saw a nomination weighs the sum of their weights. -/
  saw_weighted : ∀ c p ps, (st.saw c).lookup p = some ps → ps.WeightedBy inst.partyWeight
  /-- The justified done-reportings weigh the sum of their parties' weights, as a word. -/
  justified_weighted : st.justifiedDoneReporting.WordWeighted inst.partyWeight

variable {inst} {received : List (CSSInput sig)} {manySawExempt : Set (Nat × Bool)}
  {pendingExempt : Set (Nat × Bool × Nat)}

theorem ReadyToHandle.grows {st st' : CSSState sig} (grows : Grows st st') {q : Nat}
    {nominations : List (Nat × Bool)} {drd : DoneReportingDetails sig}
    (ready : ReadyToHandle received st q nominations drd) :
    ReadyToHandle received st' q nominations drd := by
  obtain ⟨⟨done, split, seen⟩, sent⟩ := ready
  exact ⟨⟨done, split, fun x listed => grows.sawJustified (seen x listed)⟩, sent⟩

theorem ReadyToHandle.received_mono {st : CSSState sig} {more : List (CSSInput sig)}
    (included : ∀ input ∈ received, input ∈ more) {q : Nat} {nominations : List (Nat × Bool)}
    {drd : DoneReportingDetails sig} (ready : ReadyToHandle received st q nominations drd) :
    ReadyToHandle more st q nominations drd :=
  ⟨ready.1, included _ ready.2⟩

/-- A nomination seen justified is done with. -/
theorem ReadyToHandle.next {st : CSSState sig} {q s : Nat} {c : Bool}
    {remainder : List (Nat × Bool)} {drd : DoneReportingDetails sig}
    (ready : ReadyToHandle received st q ((s, c) :: remainder) drd)
    (seen : sawJustified q c s st = true) : ReadyToHandle received st q remainder drd := by
  obtain ⟨⟨done, split, doneSeen⟩, sent⟩ := ready
  refine ⟨⟨done ++ [(s, c)], by rw [split, List.append_assoc, List.singleton_append], ?_⟩, sent⟩
  intro x listed
  rcases List.mem_append.mp listed with earlier | current
  · exact doneSeen x earlier
  · rw [List.mem_singleton.mp current]
    exact seen

theorem Invariant.mono {st : CSSState sig}
    (inv : Invariant inst received manySawExempt pendingExempt st)
    {manySawExempt' : Set (Nat × Bool)} {pendingExempt' : Set (Nat × Bool × Nat)}
    (manySawWider : manySawExempt ⊆ manySawExempt') (pendingWider : pendingExempt ⊆ pendingExempt') :
    Invariant inst received manySawExempt' pendingExempt' st :=
  { inv with
    manySaw_complete := fun p c holds notExempt =>
      inv.manySaw_complete p c holds fun exempt => notExempt (manySawWider exempt)
    pending_unjustified := fun s c m found q entry listed notExempt =>
      inv.pending_unjustified s c m found q entry listed fun exempt => notExempt (pendingWider exempt) }

theorem Invariant.received_mono {st : CSSState sig}
    (inv : Invariant inst received manySawExempt pendingExempt st) {more : List (CSSInput sig)}
    (included : ∀ input ∈ received, input ∈ more) :
    Invariant inst more manySawExempt pendingExempt st :=
  { inv with
    pending_waits := fun s c m found q entry listed =>
      (inv.pending_waits s c m found q entry listed).received_mono included
    justified_done := fun q drd found => (inv.justified_done q drd found).received_mono included }

theorem ManySawBy.grows {st st' : CSSState sig} (grows : Grows st st') {p : Nat} {c : Bool}
    (holds : ManySawBy inst st p c) : ManySawBy inst st' p c := by
  obtain ⟨justified, input, ps, found, enough⟩ := holds
  obtain ⟨ps', found', heavier, -⟩ := grows.saw c p ps found
  exact ⟨grows.justified c justified, grows.input c p input, ps', found', enough.trans heavier⟩

/-- The invariant reads neither `report` nor `sawMessages`. -/
theorem Invariant.frame {st : CSSState sig}
    (inv : Invariant inst received manySawExempt pendingExempt st) (report : Bool)
    (sawMessages : AscMap Nat (List (NominationSet × sig))) :
    Invariant inst received manySawExempt pendingExempt
      { st with report := report, sawMessages := sawMessages } :=
  { inv with }

/-- A change that grows what `Grows` reads and leaves `iSaw`, `manySaw`, the done-reportings and
the core set as they were keeps the invariant once the two parts that may fail hold. -/
theorem Invariant.of_grows {st st' : CSSState sig}
    (inv : Invariant inst received manySawExempt pendingExempt st) (grows : Grows st st')
    (same : st'.iSaw = st.iSaw ∧ st'.iSawWeight = st.iSawWeight ∧ st'.manySaw = st.manySaw ∧
      st'.unjustifiedDoneReporting = st.unjustifiedDoneReporting ∧
      st'.justifiedDoneReporting = st.justifiedDoneReporting ∧ st'.core = st.core)
    {manySawExempt' : Set (Nat × Bool)} {pendingExempt' : Set (Nat × Bool × Nat)}
    (complete : ∀ p c, ManySawBy inst st' p c → (p, c) ∉ manySawExempt' →
      st.manySaw.member p = true)
    (unjustified : ∀ s c m, st.unjustifiedDoneReporting (s, c) = some m → ∀ q entry,
      m.lookup q = some entry → (s, c, q) ∉ pendingExempt' → sawJustified q c s st' = false)
    (sawWeighted : ∀ c p ps, (st'.saw c).lookup p = some ps → ps.WeightedBy inst.partyWeight) :
    Invariant inst received manySawExempt' pendingExempt' st' := by
  obtain ⟨iSaw, iSawWeight, manySaw, pending, justifiedDone, core⟩ := same
  refine ⟨fun p c listed => ?_, fun p => ?_, ?_, fun p member => ?_, fun p c holds notExempt => ?_,
    fun s c m found q entry listed => ?_, fun s c m found => ?_, ?_, fun q drd found => ?_,
    sawWeighted, ?_⟩
  · rw [iSaw] at listed
    exact (inv.iSaw_justified p c listed).imp (grows.justified c) (grows.input c p)
  · rw [iSaw]
    exact inv.iSaw_unique p
  · rw [iSaw, iSawWeight]
    exact inv.iSawWeight_eq
  · rw [manySaw] at member
    exact (inv.manySaw_sound p member).imp fun _ holds => holds.grows grows
  · rw [manySaw]
    exact complete p c holds notExempt
  · rw [pending] at found
    exact (inv.pending_waits s c m found q entry listed).grows grows
  · rw [pending] at found
    exact unjustified s c m found
  · rw [justifiedDone, core]
    exact inv.core_set
  · rw [justifiedDone] at found
    exact (inv.justified_done q drd found).grows grows
  · rw [justifiedDone]
    exact inv.justified_weighted

/-- An exempt `manySaw` condition is settled once it puts its party in `manySaw`. -/
theorem Invariant.settleManySaw {st : CSSState sig} {p : Nat} {c : Bool}
    (inv : Invariant inst received (insert (p, c) manySawExempt) pendingExempt st)
    (settled : ManySawBy inst st p c → (p, c) ∉ manySawExempt → st.manySaw.member p = true) :
    Invariant inst received manySawExempt pendingExempt st :=
  { inv with
    manySaw_complete := fun p' c' holds notExempt => by
      by_cases same : (p', c') = (p, c)
      · obtain ⟨rfl, rfl⟩ := Prod.mk.inj same
        exact settled holds notExempt
      · exact inv.manySaw_complete p' c' holds fun exempt => exempt.elim same notExempt }

/-- Exempt waiting done-reportings are settled once their nominations are not seen justified. -/
theorem Invariant.settlePending {st : CSSState sig} {settledSet : Set (Nat × Bool × Nat)}
    (inv : Invariant inst received manySawExempt (pendingExempt ∪ settledSet) st)
    (settled : ∀ s c m, st.unjustifiedDoneReporting (s, c) = some m → ∀ q entry,
      m.lookup q = some entry → (s, c, q) ∈ settledSet → (s, c, q) ∉ pendingExempt →
        sawJustified q c s st = false) :
    Invariant inst received manySawExempt pendingExempt st :=
  { inv with
    pending_unjustified := fun s c m found q entry listed notExempt => by
      by_cases isSettled : (s, c, q) ∈ settledSet
      · exact settled s c m found q entry listed isSettled notExempt
      · exact inv.pending_unjustified s c m found q entry listed
          fun exempt => exempt.elim notExempt isSettled }

/-- The exemption of one waiting done-reporting settled. -/
theorem Invariant.settleWaiting {st : CSSState sig} {s : Nat} {c : Bool} {q : Nat}
    (inv : Invariant inst received manySawExempt (pendingExempt ∪ {(s, c, q)}) st)
    (settled : (s, c, q) ∉ pendingExempt → ∀ m entry, st.unjustifiedDoneReporting (s, c) = some m →
      m.lookup q = some entry → sawJustified q c s st = false) :
    Invariant inst received manySawExempt pendingExempt st :=
  inv.settlePending fun s' c' m found q' entry listed isSettled notExempt => by
    obtain ⟨rfl, rfl, rfl⟩ : s' = s ∧ c' = c ∧ q' = q := by simpa using isSettled
    exact settled notExempt m entry found listed

end Invariant

/-! ## Waiting and justified done-reportings -/

theorem lookup_addWaiting {party : Nat} {entry : Waiting sig}
    {old : Option (AscMap Nat (Waiting sig))} {m : AscMap Nat (Waiting sig)}
    (added : addWaiting party entry old = some m) (q : Nat) :
    m.lookup q = if q = party then some entry else old.bind fun l => l.lookup q := by
  cases old with
  | none =>
      cases added
      rw [AscMap.lookup_singleton]
      rfl
  | some l =>
      cases added
      rw [AscMap.lookup_insert]
      rfl

/-- What waits at a key once a done-reporting is filed there: it, or what waited before. -/
theorem waiting_addWaiting {pending : Nat × Bool → Option (AscMap Nat (Waiting sig))}
    {key key' : Nat × Bool} {party q : Nat} {new entry : Waiting sig}
    {m : AscMap Nat (Waiting sig)}
    (found : Function.update pending key (addWaiting party new (pending key)) key' = some m)
    (listed : m.lookup q = some entry) :
    (key' = key ∧ q = party ∧ entry = new) ∨
      ∃ m', pending key' = some m' ∧ m'.lookup q = some entry := by
  by_cases same : key' = key
  · subst same
    rw [Function.update_self] at found
    rw [lookup_addWaiting found] at listed
    by_cases sameParty : q = party
    · rw [if_pos sameParty] at listed
      exact Or.inl ⟨rfl, sameParty, (Option.some.inj listed).symm⟩
    · rw [if_neg sameParty, Option.bind_eq_some_iff] at listed
      exact Or.inr listed
  · rw [Function.update_of_ne same] at found
    exact Or.inr ⟨m, found, listed⟩

/-- What waits at a key once only the parties `keep` chooses are kept there: a kept one of those
that waited before. -/
theorem waiting_filterWithKey {pending : Nat × Bool → Option (AscMap Nat (Waiting sig))}
    {key key' : Nat × Bool} {m m' : AscMap Nat (Waiting sig)}
    (waiting : (pending key).getD AscMap.empty = m) (keep : Nat → Waiting sig → Bool)
    (found : Function.update pending key
      (if (m.filterWithKey keep).null then none else some (m.filterWithKey keep)) key' = some m')
    {q : Nat} {entry : Waiting sig} (listed : m'.lookup q = some entry) :
    ∃ m'', pending key' = some m'' ∧ m''.lookup q = some entry ∧
      (key' = key → keep q entry = true) := by
  by_cases same : key' = key
  · subst same
    rw [Function.update_self] at found
    split at found
    · cases found
    · cases found
      rw [AscMap.lookup_filterWithKey, Option.filter_eq_some_iff] at listed
      obtain ⟨listed, kept⟩ := listed
      cases before : pending key' with
      | none =>
          rw [before, Option.getD_none] at waiting
          subst waiting
          rw [AscMap.lookup_empty] at listed
          cases listed
      | some m'' =>
          rw [before, Option.getD_some] at waiting
          subst waiting
          exact ⟨m'', rfl, listed, fun _ => kept⟩
  · rw [Function.update_of_ne same] at found
    exact ⟨m', found, listed, fun same' => absurd same' same⟩

section Handlers

variable {inst : CSSInstance} (maxParty : Nat) {received : List (CSSInput sig)}
  {manySawExempt : Set (Nat × Bool)} {pendingExempt : Set (Nat × Bool × Nat)}

/-- Keeping only some of the parties waiting at a key. -/
theorem Invariant.keepWaiting {st : CSSState sig}
    (inv : Invariant inst received manySawExempt pendingExempt st) {key : Nat × Bool}
    {m : AscMap Nat (Waiting sig)}
    (waiting : (st.unjustifiedDoneReporting key).getD AscMap.empty = m)
    (keep : Nat → Waiting sig → Bool) :
    Invariant inst received manySawExempt pendingExempt
      { st with
        unjustifiedDoneReporting := Function.update st.unjustifiedDoneReporting key
          (if (m.filterWithKey keep).null then none else some (m.filterWithKey keep)) } :=
  { inv with
    pending_waits := fun s c m' found q entry listed => by
      obtain ⟨m'', before, listed', -⟩ := waiting_filterWithKey waiting keep found listed
      exact inv.pending_waits s c m'' before q entry listed'
    pending_unjustified := fun s c m' found q entry listed notExempt => by
      obtain ⟨m'', before, listed', -⟩ := waiting_filterWithKey waiting keep found listed
      exact inv.pending_unjustified s c m'' before q entry listed' notExempt }

/-- Filing a done-reporting under a nomination not seen justified from its sender. -/
theorem Invariant.wait {st : CSSState sig}
    (inv : Invariant inst received manySawExempt pendingExempt st) {party s : Nat} {c : Bool}
    {remainder : List (Nat × Bool)} {drd : DoneReportingDetails sig}
    (ready : ReadyToHandle received st party ((s, c) :: remainder) drd)
    (unseen : sawJustified party c s st = false) :
    Invariant inst received manySawExempt pendingExempt
      { st with
        unjustifiedDoneReporting := Function.update st.unjustifiedDoneReporting (s, c)
          (addWaiting party (remainder, drd) (st.unjustifiedDoneReporting (s, c))) } :=
  { inv with
    pending_waits := fun s' c' m found q entry listed => by
      rcases waiting_addWaiting found listed with ⟨same, rfl, rfl⟩ | ⟨m', before, listed'⟩
      · obtain ⟨rfl, rfl⟩ := Prod.mk.inj same
        exact ready
      · exact inv.pending_waits s' c' m' before q entry listed'
    pending_unjustified := fun s' c' m found q entry listed notExempt => by
      rcases waiting_addWaiting found listed with ⟨same, rfl, rfl⟩ | ⟨m', before, listed'⟩
      · obtain ⟨rfl, rfl⟩ := Prod.mk.inj same
        exact unseen
      · exact inv.pending_unjustified s' c' m' before q entry listed' notExempt }

/-- Adding a done-reporting ready to be handled to the justified ones, with a core set that is
there once they weigh enough. -/
theorem Invariant.addJustified {st : CSSState sig}
    (inv : Invariant inst received manySawExempt pendingExempt st) {party : Nat}
    {drd : DoneReportingDetails sig} (ready : ReadyToHandle received st party [] drd)
    (absent : st.justifiedDoneReporting.member party = false) {core : Option NominationSet}
    (chosen : inst.totalWeight - inst.corruptWeight ≤
      (st.justifiedDoneReporting.insert party (inst.partyWeight party) drd).weight →
        core.isSome) :
    Invariant inst received manySawExempt pendingExempt
      { st with
        justifiedDoneReporting := st.justifiedDoneReporting.insert party (inst.partyWeight party) drd
        core := core } :=
  { inv with
    core_set := fun _ enough => chosen enough
    justified_weighted := inv.justified_weighted.insert party drd
    justified_done := fun q drd' found => by
      dsimp only at found
      rw [PartyMap.insert_of_member_eq_false absent] at found
      dsimp only at found
      rw [AscMap.lookup_insert] at found
      split at found
      · rename_i same
        subst same
        cases found
        exact ready
      · exact inv.justified_done q drd' found }

/-- `handleDoneReporting` keeps the invariant, and changes only the done-reportings and the core
set. -/
theorem handleDoneReporting_invariant {st : CSSState sig}
    (inv : Invariant inst received manySawExempt pendingExempt st) (party : Nat) :
    ∀ (nominations : List (Nat × Bool)) (drd : DoneReportingDetails sig),
      ReadyToHandle received st party nominations drd →
      Invariant inst received manySawExempt pendingExempt
          (handleDoneReporting inst maxParty party nominations drd st).1 ∧
        OnlyReports st (handleDoneReporting inst maxParty party nominations drd st).1
  | [], drd, ready => by
      rw [handleDoneReporting]
      split
      · exact ⟨inv, OnlyReports.refl st⟩
      · rename_i present
        have absent : st.justifiedDoneReporting.member party = false := by simpa using present
        dsimp only
        split
        · split
          · -- the first time the justified done-reportings weigh enough: the core set is chosen
            rename_i unset
            exact ⟨inv.addJustified ready absent fun _ => rfl,
              OnlyReports.update st _ _ fun cs set => by rw [unset] at set; cases set⟩
          · rename_i chosen
            exact ⟨inv.addJustified ready absent fun _ => by rw [chosen]; rfl,
              OnlyReports.update st _ _ fun _ set => set⟩
        · rename_i light
          exact ⟨inv.addJustified ready absent fun heavy => absurd heavy light,
            OnlyReports.update st _ _ fun _ set => set⟩
  | (s, c) :: remainder, drd, ready => by
      rw [handleDoneReporting]
      split
      · rename_i seen
        exact handleDoneReporting_invariant inv party remainder drd (ready.next seen)
      · rename_i unseen
        have unseen : sawJustified party c s st = false := by simpa using unseen
        exact ⟨inv.wait ready unseen, OnlyReports.update st _ _ fun _ set => set⟩

/-- The done-reportings `justifyPending` releases, handled in turn, each ready when its turn
comes since what came before changed only the done-reportings. -/
theorem handleDoneReportings_invariant :
    ∀ (entries : List (Nat × Waiting sig)) (st : CSSState sig),
      Invariant inst received manySawExempt pendingExempt st →
      (∀ entry ∈ entries, ReadyToHandle received st entry.1 entry.2.1 entry.2.2) →
      Invariant inst received manySawExempt pendingExempt
          (forEachStep (fun entry : Nat × Waiting sig =>
            handleDoneReporting inst maxParty entry.1 entry.2.1 entry.2.2) entries st).1 ∧
        OnlyReports st (forEachStep (fun entry : Nat × Waiting sig =>
            handleDoneReporting inst maxParty entry.1 entry.2.1 entry.2.2) entries st).1
  | [], st, inv, _ => ⟨inv, OnlyReports.refl st⟩
  | entry :: rest, st, inv, ready => by
      obtain ⟨handled, only⟩ := handleDoneReporting_invariant maxParty inv entry.1 entry.2.1
        entry.2.2 (ready entry List.mem_cons_self)
      obtain ⟨restInv, restOnly⟩ := handleDoneReportings_invariant rest _ handled
        fun later listed => (ready later (List.mem_cons_of_mem entry listed)).grows only.grows
      rw [forEachStep_cons_fst]
      exact ⟨restInv, only.trans restOnly⟩

/-- Once `c` is justified and `src` nominated it, `src`'s nomination is seen justified from
exactly the parties that saw it. -/
theorem sawJustified_of_input {st : CSSState sig} {src : Nat} {c : Bool}
    (justified : st.justified c = true) (input : ((st.input c).lookup src).isSome = true)
    (q : Nat) :
    sawJustified q c src st =
      match (st.saw c).lookup src with
      | none => false
      | some m => m.member q := by
  unfold CSS.sawJustified
  rw [justified, input]
  rfl

/-- `justifyPending src c`, once `src`'s nomination of `c` is a justified input, settles the
done-reportings waiting on it, and changes only the done-reportings and the core set. -/
theorem justifyPending_invariant {st : CSSState sig} {src : Nat} {c : Bool}
    (inv : Invariant inst received manySawExempt
      (pendingExempt ∪ {x | x.1 = src ∧ x.2.1 = c}) st)
    (justified : st.justified c = true) (input : ((st.input c).lookup src).isSome = true) :
    Invariant inst received manySawExempt pendingExempt (justifyPending inst maxParty src c st).1 ∧
      OnlyReports st (justifyPending inst maxParty src c st).1 := by
  have seenBy := sawJustified_of_input justified input
  unfold justifyPending
  split
  · rename_i nothingWaits
    refine ⟨inv.settlePending fun s c' m found _ _ _ isSettled _ => ?_, OnlyReports.refl st⟩
    obtain ⟨rfl, rfl⟩ : s = src ∧ c' = c := isSettled
    rw [nothingWaits] at found
    cases found
  · rename_i m waiting
    split
    · -- nobody saw the nomination yet
      rename_i unseen
      refine ⟨inv.settlePending fun s c' _ _ q _ _ isSettled _ => ?_, OnlyReports.refl st⟩
      obtain ⟨rfl, rfl⟩ : s = src ∧ c' = c := isSettled
      rw [seenBy q, unseen]
    · rename_i jsaw seen
      have waiting' : (st.unjustifiedDoneReporting (src, c)).getD AscMap.empty = m := by
        rw [waiting]
        rfl
      dsimp only
      refine (handleDoneReportings_invariant maxParty _ _ ?_ ?_).imp_right
        fun only => (OnlyReports.update st _ _ fun _ set => set).trans only
      · -- those left waiting are the parties that did not see it
        refine (inv.keepWaiting waiting' _).settlePending
          fun s c' m' found q entry listed isSettled _ => ?_
        obtain ⟨rfl, rfl⟩ : s = src ∧ c' = c := isSettled
        obtain ⟨-, -, -, kept⟩ := waiting_filterWithKey waiting' _ found listed
        show sawJustified q c' s st = false
        rw [seenBy q, seen]
        simpa using kept rfl
      · -- those released saw it, so are ready to be handled from their next nomination on
        rintro ⟨q, entry⟩ listed
        rw [AscMap.mem_iff_lookup, AscMap.lookup_filterWithKey, Option.filter_eq_some_iff]
          at listed
        obtain ⟨waitsHere, sawIt⟩ := listed
        refine (inv.pending_waits src c m waiting q entry waitsHere).next ?_
        show sawJustified q c src st = true
        rw [seenBy q, seen]
        exact sawIt

/-- `addManySaw p`, for a party whose `manySaw` condition holds, settles that condition. -/
theorem Invariant.addManySaw {st : CSSState sig} {p : Nat} {c : Bool}
    (inv : Invariant inst received (insert (p, c) manySawExempt) pendingExempt st)
    (holds : ManySawBy inst st p c) :
    Invariant inst received manySawExempt pendingExempt (CSS.addManySaw inst p st).1 := by
  have member : ∀ q, (CSS.addManySaw inst p st).1.manySaw.member q = true ↔
      st.manySaw.member q = true ∨ q = p := by
    intro q
    simp [CSS.addManySaw, PartySet.member_insert, @eq_comm _ p]
  have added : Invariant inst received (insert (p, c) manySawExempt) pendingExempt
      (CSS.addManySaw inst p st).1 :=
    { inv with
      manySaw_sound := fun q isMember => by
        rcases (member q).mp isMember with before | rfl
        · exact inv.manySaw_sound q before
        · exact ⟨c, holds⟩
      manySaw_complete := fun q c' holds' notExempt =>
        (member q).mpr (Or.inl (inv.manySaw_complete q c' holds' notExempt)) }
  exact added.settleManySaw fun _ _ => (member p).mpr (Or.inr rfl)

/-- `checkManySaw src c`, once `src`'s nomination of `c` is a justified input, settles its
`manySaw` condition. -/
theorem checkManySaw_invariant {st : CSSState sig} {src : Nat} {c : Bool}
    (inv : Invariant inst received (insert (src, c) manySawExempt) pendingExempt st)
    (justified : st.justified c = true) (input : ((st.input c).lookup src).isSome = true) :
    Invariant inst received manySawExempt pendingExempt (checkManySaw inst src c st).1 ∧
      Grows st (checkManySaw inst src c st).1 := by
  unfold checkManySaw
  split
  · rename_i unseen
    refine ⟨inv.settleManySaw fun holds _ => ?_, Grows.refl st⟩
    obtain ⟨-, -, ps, found, -⟩ := holds
    rw [unseen] at found
    cases found
  · rename_i ps seen
    split
    · rename_i enough
      exact ⟨inv.addManySaw ⟨justified, input, ps, seen, enough⟩,
        Grows.of_same rfl rfl rfl fun _ set => set⟩
    · rename_i light
      refine ⟨inv.settleManySaw fun holds _ => ?_, Grows.refl st⟩
      obtain ⟨-, -, ps', found, enough⟩ := holds
      rw [seen] at found
      cases found
      exact absurd enough light

/-- `recordNomination src c`, once `src`'s nomination of `c` is a justified input, keeps the
invariant: `iSaw` gains that nomination only when it has none of `src`, and its weight with it. -/
theorem recordNomination_invariant (fits : WeightsFit inst.partyWeight) {st : CSSState sig}
    {src : Nat} {c : Bool} (inv : Invariant inst received manySawExempt pendingExempt st)
    (justified : st.justified c = true) (input : ((st.input c).lookup src).isSome = true) :
    Invariant inst received manySawExempt pendingExempt (recordNomination inst src c st).1 ∧
      Grows st (recordNomination inst src c st).1 := by
  unfold recordNomination
  split
  · split
    · exact ⟨inv, Grows.refl st⟩
    · rename_i fresh
      have absent := (nominations_eq_none_iff src st.iSaw).mp (Option.not_isSome_iff_eq_none.mp fresh)
      have notListed : src ∉ nominatedParties st.iSaw := by
        rw [mem_nominatedParties, absent.1, absent.2]
        decide
      have justifiedListed : ∀ p c', (p, c') ∈ nominationSetToList (addNomination src c st.iSaw) →
          st.justified c' = true ∧ ((st.input c').lookup p).isSome = true := by
        intro p c' listed
        rcases mem_nominationSetToList_addNomination.mp listed with ⟨rfl, rfl⟩ | before
        · exact ⟨justified, input⟩
        · exact inv.iSaw_justified p c' before
      have unique : ∀ p, ¬(BitSet.member p (addNomination src c st.iSaw).nomTop = true ∧
          BitSet.member p (addNomination src c st.iSaw).nomBot = true) := by
        intro p
        by_cases same : p = src
        · subst same
          cases c <;> simp [addNomination, absent.1, absent.2]
        · cases c <;> simpa [addNomination, Ne.symm same] using inv.iSaw_unique p
      -- the weight of `iSaw` with `src`'s fits a word, so the word addition is exact
      have weight : Word.add 64 st.iSawWeight (inst.partyWeight src) =
          ∑ p ∈ nominatedParties (addNomination src c st.iSaw), inst.partyWeight p := by
        have summed : st.iSawWeight + inst.partyWeight src =
            ∑ p ∈ nominatedParties (addNomination src c st.iSaw), inst.partyWeight p := by
          rw [nominatedParties_addNomination, Finset.sum_insert notListed, inv.iSawWeight_eq,
            Nat.add_comm]
        rw [Word.add_of_lt (summed ▸ fits _), summed]
      exact ⟨{ inv with
          iSaw_justified := justifiedListed, iSaw_unique := unique, iSawWeight_eq := weight },
        Grows.of_same rfl rfl rfl fun _ set => set⟩
  · exact ⟨inv, Grows.refl st⟩

/-- `justifyNomination src c`, once `src`'s nomination of `c` is a justified input, settles the
exemptions of that nomination. -/
theorem justifyNomination_invariant (fits : WeightsFit inst.partyWeight) {st : CSSState sig}
    {src : Nat} {c : Bool} (inv : Invariant inst received (insert (src, c) manySawExempt)
      (pendingExempt ∪ {x | x.1 = src ∧ x.2.1 = c}) st)
    (justified : st.justified c = true) (input : ((st.input c).lookup src).isSome = true) :
    Invariant inst received manySawExempt pendingExempt
        (justifyNomination inst maxParty src c st).1 ∧
      Grows st (justifyNomination inst maxParty src c st).1 := by
  obtain ⟨recorded, recordGrows⟩ := recordNomination_invariant fits inv justified input
  obtain ⟨checked, checkGrows⟩ := checkManySaw_invariant recorded
    (recordGrows.justified c justified) (recordGrows.input c src input)
  have grows := recordGrows.trans checkGrows
  obtain ⟨released, releaseOnly⟩ := justifyPending_invariant maxParty checked
    (grows.justified c justified) (grows.input c src input)
  exact ⟨released, grows.trans releaseOnly.grows⟩

/-! ### Justifying a choice -/

/-- The nominations of `c` by `parties`. -/
def nominationsBy (c : Bool) (parties : List Nat) : Set (Nat × Bool) :=
  {x | x.2 = c ∧ x.1 ∈ parties}

/-- The done-reportings filed under a nomination of `c` by `parties`. -/
def waitingOnNominations (c : Bool) (parties : List Nat) : Set (Nat × Bool × Nat) :=
  {x | x.2.1 = c ∧ x.1 ∈ parties}

@[simp] theorem nominationsBy_nil (c : Bool) : nominationsBy c [] = ∅ := by
  simp [nominationsBy]

@[simp] theorem waitingOnNominations_nil (c : Bool) : waitingOnNominations c [] = ∅ := by
  simp [waitingOnNominations]

theorem nominationsBy_cons (c : Bool) (p : Nat) (rest : List Nat) :
    nominationsBy c (p :: rest) = insert (p, c) (nominationsBy c rest) := by
  ext ⟨q, c'⟩
  simp only [nominationsBy, Set.mem_ofPred_eq, Set.mem_insert_iff, Prod.mk.injEq, List.mem_cons]
  tauto

theorem waitingOnNominations_cons (c : Bool) (p : Nat) (rest : List Nat) :
    waitingOnNominations c (p :: rest) =
      waitingOnNominations c rest ∪ {x | x.1 = p ∧ x.2.1 = c} := by
  ext ⟨s, c', q⟩
  simp only [waitingOnNominations, Set.mem_ofPred_eq, Set.mem_union, List.mem_cons]
  tauto

theorem grows_justify (st : CSSState sig) (c : Bool) :
    Grows st { st with justified := Function.update st.justified c true } where
  justified c' holds := by
    dsimp only
    by_cases same : c' = c
    · rw [same, Function.update_self]
    · rw [Function.update_of_ne same]
      exact holds
  input _ _ holds := holds
  saw _ _ ps found := ⟨ps, found, le_rfl, fun _ member => member⟩
  core _ set := set

/-- Justifying `c` exempts the nominations of `c` from the two parts of the invariant it may
break, until each is processed. -/
theorem Invariant.justify {st : CSSState sig}
    (inv : Invariant inst received manySawExempt pendingExempt st) (c : Bool) :
    Invariant inst received (manySawExempt ∪ nominationsBy c (st.input c).keys)
      (pendingExempt ∪ waitingOnNominations c (st.input c).keys)
      { st with justified := Function.update st.justified c true } := by
  have grows := grows_justify st c
  -- the other choice reads as before
  have other : ∀ c', c' ≠ c → Function.update st.justified c true c' = st.justified c' :=
    fun c' different => Function.update_of_ne different _ _
  have keyed : ∀ c' p, ((st.input c').lookup p).isSome = true → p ∈ (st.input c').keys :=
    fun c' p input => (AscMap.mem_keys_iff _ _).mpr (Option.isSome_iff_exists.mp input)
  refine inv.of_grows grows ⟨rfl, rfl, rfl, rfl, rfl, rfl⟩ (fun p c' holds notExempt => ?_)
    (fun s c' m found q entry listed notExempt => ?_) inv.saw_weighted
  · by_cases same : c' = c
    · subst same
      exact absurd (Or.inr ⟨rfl, keyed c' p holds.2.1⟩) notExempt
    · obtain ⟨justified, rest⟩ := holds
      refine inv.manySaw_complete p c' ⟨?_, rest⟩ fun exempt => notExempt (Or.inl exempt)
      rw [← other c' same]
      exact justified
  · by_cases same : c' = c
    · subst same
      cases input : ((st.input c').lookup s).isSome with
      | false =>
          unfold CSS.sawJustified
          simp [input]
      | true => exact absurd (Or.inr ⟨rfl, keyed c' s input⟩) notExempt
    · have unchanged : sawJustified q c' s
          { st with justified := Function.update st.justified c true } = sawJustified q c' s st :=
        sawJustified_congr (other c' same) rfl rfl
      rw [unchanged]
      exact inv.pending_unjustified s c' m found q entry listed
        fun exempt => notExempt (Or.inl exempt)

/-- `justifyNomination` for each of `parties` that nominated `c`, once `c` is justified: each
settles its own exemptions. -/
theorem justifyNominations_invariant (fits : WeightsFit inst.partyWeight) (c : Bool) :
    ∀ (parties : List Nat) (st : CSSState sig),
      Invariant inst received (manySawExempt ∪ nominationsBy c parties)
        (pendingExempt ∪ waitingOnNominations c parties) st →
      st.justified c = true → (∀ p ∈ parties, ((st.input c).lookup p).isSome = true) →
      Invariant inst received manySawExempt pendingExempt
          (forEachStep (fun p => justifyNomination inst maxParty p c) parties st).1 ∧
        Grows st (forEachStep (fun p => justifyNomination inst maxParty p c) parties st).1
  | [], st, inv, _, _ => by
      rw [nominationsBy_nil, waitingOnNominations_nil, Set.union_empty, Set.union_empty] at inv
      exact ⟨inv, Grows.refl st⟩
  | p :: rest, st, inv, justified, inputs => by
      rw [nominationsBy_cons, Set.union_insert, waitingOnNominations_cons, ← Set.union_assoc]
        at inv
      obtain ⟨nominated, grows⟩ :=
        justifyNomination_invariant maxParty fits inv justified (inputs p List.mem_cons_self)
      obtain ⟨later, laterGrows⟩ := justifyNominations_invariant fits c rest _ nominated
        (grows.justified c justified)
        fun q listed => grows.input c q (inputs q (List.mem_cons_of_mem p listed))
      rw [forEachStep_cons_fst]
      exact ⟨later, grows.trans laterGrows⟩

theorem justifyChoice_invariant (fits : WeightsFit inst.partyWeight) {st : CSSState sig}
    (inv : Invariant inst received manySawExempt pendingExempt st) (c : Bool) :
    Invariant inst received manySawExempt pendingExempt (justifyChoice inst maxParty c st).1 ∧
      Grows st (justifyChoice inst maxParty c st).1 := by
  unfold justifyChoice
  dsimp only
  split
  · -- justifying `c` again changes nothing
    rename_i already
    rw [Function.update_eq_self_iff.mpr already.symm]
    exact ⟨inv, Grows.refl st⟩
  · refine (justifyNominations_invariant maxParty fits c _ _ (inv.justify c)
      (Function.update_self ..)
      fun p listed => ?_).imp_right (grows_justify st c).trans
    exact Option.isSome_iff_exists.mpr ((AscMap.mem_keys_iff _ _).mp listed)

/-! ### Messages -/

/-- Recording `k`'s entry of the choice `c` leaves the other entries as they were. -/
theorem lookup_update_insert {β : Type} (f : Bool → AscMap Nat β) {c c' : Bool} {k p : Nat}
    (v : β) (other : (p, c') ≠ (k, c)) :
    (Function.update f c ((f c).insert k v) c').lookup p = (f c').lookup p := by
  by_cases same : c' = c
  · subst same
    rw [Function.update_self, AscMap.lookup_insert,
      if_neg fun samePeer => other (by rw [samePeer])]
  · rw [Function.update_of_ne same]

theorem lookup_update_insert_self {β : Type} (f : Bool → AscMap Nat β) (c : Bool) (k : Nat)
    (v : β) : (Function.update f c ((f c).insert k v) c).lookup k = some v := by
  rw [Function.update_self, AscMap.lookup_insert, if_pos rfl]

/-- `src`'s input of `c` recorded: only its nomination may now meet its `manySaw` condition or be
seen justified. -/
theorem Invariant.addInput {st : CSSState sig}
    (inv : Invariant inst received manySawExempt pendingExempt st) (src : Nat) (c : Bool)
    (signature : sig) :
    Invariant inst received (insert (src, c) manySawExempt)
        (pendingExempt ∪ {x | x.1 = src ∧ x.2.1 = c})
        { st with input := Function.update st.input c ((st.input c).insert src signature) } ∧
      Grows st
        { st with input := Function.update st.input c ((st.input c).insert src signature) } := by
  have unchanged := fun {c' : Bool} {p : Nat} (other : (p, c') ≠ (src, c)) =>
    lookup_update_insert st.input signature other
  have grows : Grows st
      { st with input := Function.update st.input c ((st.input c).insert src signature) } :=
    { justified := fun _ holds => holds
      input := fun c' p holds => by
        dsimp only
        by_cases same : (p, c') = (src, c)
        · obtain ⟨rfl, rfl⟩ := Prod.mk.inj same
          rw [lookup_update_insert_self]
          rfl
        · rw [unchanged same]
          exact holds
      saw := fun _ _ ps found => ⟨ps, found, le_rfl, fun _ member => member⟩
      core := fun _ set => set }
  refine ⟨inv.of_grows grows ⟨rfl, rfl, rfl, rfl, rfl, rfl⟩ (fun p c' holds notExempt => ?_)
    (fun s c' m found q entry listed notExempt => ?_) inv.saw_weighted, grows⟩
  · obtain ⟨justified, input, rest⟩ := holds
    have other : (p, c') ≠ (src, c) := fun same => notExempt (Or.inl same)
    refine inv.manySaw_complete p c' ⟨justified, ?_, rest⟩ fun exempt => notExempt (Or.inr exempt)
    rw [← unchanged other]
    exact input
  · have other : (s, c') ≠ (src, c) := fun same =>
      notExempt (Or.inr ⟨congrArg Prod.fst same, congrArg Prod.snd same⟩)
    have same : sawJustified q c' s
        { st with input := Function.update st.input c ((st.input c).insert src signature) } =
          sawJustified q c' s st :=
      sawJustified_congr rfl (congrArg Option.isSome (unchanged other)) rfl
    rw [same]
    exact inv.pending_unjustified s c' m found q entry listed fun exempt => notExempt (Or.inl exempt)

/-- `src` recorded among those that saw `sp`'s nomination of `c`: only that nomination may now
meet its `manySaw` condition, and only be seen justified from `src`. -/
theorem Invariant.addSeen {st : CSSState sig}
    (inv : Invariant inst received manySawExempt pendingExempt st) {src sp : Nat} {c : Bool}
    {ps' : PartySet} (recorded : ps'.member src = true)
    (others : ∀ q, q ≠ src → ps'.member q = ((st.saw c).lookup sp).any (PartySet.member q))
    (heavier : ∀ ps, (st.saw c).lookup sp = some ps → ps.weight ≤ ps'.weight)
    (weighted : ps'.WeightedBy inst.partyWeight) :
    Invariant inst received (insert (sp, c) manySawExempt) (pendingExempt ∪ {(sp, c, src)})
        { st with saw := Function.update st.saw c ((st.saw c).insert sp ps') } ∧
      Grows st { st with saw := Function.update st.saw c ((st.saw c).insert sp ps') } := by
  have unchanged := fun {c' : Bool} {p : Nat} (other : (p, c') ≠ (sp, c)) =>
    lookup_update_insert st.saw ps' other
  have grows : Grows st { st with saw := Function.update st.saw c ((st.saw c).insert sp ps') } :=
    { justified := fun _ holds => holds
      input := fun _ _ holds => holds
      saw := fun c' p ps found => by
        by_cases same : (p, c') = (sp, c)
        · obtain ⟨rfl, rfl⟩ := Prod.mk.inj same
          refine ⟨ps', lookup_update_insert_self st.saw c' p ps', heavier ps found,
            fun q member => ?_⟩
          by_cases isSrc : q = src
          · rw [isSrc]
            exact recorded
          · rw [others q isSrc, found]
            exact member
        · exact ⟨ps, (unchanged same).trans found, le_rfl, fun _ member => member⟩
      core := fun _ set => set }
  refine ⟨inv.of_grows grows ⟨rfl, rfl, rfl, rfl, rfl, rfl⟩ (fun p c' holds notExempt => ?_)
    (fun s c' m found q entry listed notExempt => ?_) (fun c' p ps found => ?_), grows⟩
  · obtain ⟨justified, input, ps, found, enough⟩ := holds
    have other : (p, c') ≠ (sp, c) := fun same => notExempt (Or.inl same)
    exact inv.manySaw_complete p c' ⟨justified, input, ps, (unchanged other).symm.trans found,
      enough⟩ fun exempt => notExempt (Or.inr exempt)
  · have same : sawJustified q c' s
        { st with saw := Function.update st.saw c ((st.saw c).insert sp ps') } =
          sawJustified q c' s st := by
      refine sawJustified_congr rfl rfl ?_
      dsimp only
      by_cases atSeen : (s, c') = (sp, c)
      · obtain ⟨rfl, rfl⟩ := Prod.mk.inj atSeen
        have isSrc : q ≠ src := fun isSrc =>
          notExempt (Or.inr (Set.mem_singleton_iff.mpr (by rw [isSrc])))
        rw [lookup_update_insert_self, Option.any_some]
        exact others q isSrc
      · rw [unchanged atSeen]
    rw [same]
    exact inv.pending_unjustified s c' m found q entry listed fun exempt => notExempt (Or.inl exempt)
  · -- the entry written is weighted, and the others are as they were
    by_cases same : (p, c') = (sp, c)
    · obtain ⟨rfl, rfl⟩ := Prod.mk.inj same
      rw [lookup_update_insert_self] at found
      cases found
      exact weighted
    · exact inv.saw_weighted c' p ps ((unchanged same).symm.trans found)

/-- `takePending party s c` takes out what `party` has waiting on `(s, c)`, settling its
exemption. -/
theorem takePending_invariant {st : CSSState sig} {party s : Nat} {c : Bool}
    (inv : Invariant inst received manySawExempt (pendingExempt ∪ {(s, c, party)}) st) :
    Invariant inst received manySawExempt pendingExempt (takePending party s c st).2 ∧
      OnlyReports st (takePending party s c st).2 ∧
      ∀ entry, (takePending party s c st).1 = some entry →
        ∃ m, st.unjustifiedDoneReporting (s, c) = some m ∧ m.lookup party = some entry := by
  unfold takePending
  dsimp only
  refine ⟨?_, OnlyReports.update st _ _ fun _ set => set, fun entry taken => ?_⟩
  · refine (inv.keepWaiting rfl fun k _ => decide (k ≠ party)).settleWaiting
      fun _ m entry found listed => ?_
    obtain ⟨-, -, -, kept⟩ := waiting_filterWithKey rfl _ found listed
    exact absurd (kept rfl) (by simp)
  · cases waiting : st.unjustifiedDoneReporting (s, c) with
    | none =>
        rw [waiting, Option.getD_none, AscMap.lookup_empty] at taken
        cases taken
    | some m =>
        rw [waiting, Option.getD_some] at taken
        exact ⟨m, rfl, taken⟩

/-- What `receiveSeen` records of `src` having seen `(sp, c)`: `src` is in the new set and the
others in it are those recorded before; the new set weighs at least the old one, its weight is
the one compared with the threshold, "already recorded" means it is the old set, and it stays
weighted. -/
theorem receiveSeen_recorded (fits : WeightsFit inst.partyWeight) {st : CSSState sig}
    (inv : Invariant inst received manySawExempt pendingExempt st) (src sp : Nat) (c : Bool) :
    let updated : Nat × Bool × PartySet :=
      match (st.saw c).lookup sp with
      | none => (inst.partyWeight src, false, PartySet.singleton src (inst.partyWeight src))
      | some ps =>
        let inserted := ps.insertLookup src (inst.partyWeight src)
        (inserted.2.weight, inserted.1, inserted.2)
    updated.2.2.member src = true ∧
      (∀ q, q ≠ src → updated.2.2.member q = ((st.saw c).lookup sp).any (PartySet.member q)) ∧
      (∀ ps, (st.saw c).lookup sp = some ps → ps.weight ≤ updated.2.2.weight) ∧
      updated.1 = updated.2.2.weight ∧
      (updated.2.1 = true → (st.saw c).lookup sp = some updated.2.2) ∧
      updated.2.2.WeightedBy inst.partyWeight := by
  intro updated
  simp only [updated]
  cases found : (st.saw c).lookup sp with
  | none =>
      refine ⟨by simp [PartySet.member, PartySet.singleton], fun q other => ?_,
        fun _ absent => (by cases absent), rfl, fun present => (by cases present),
        PartySet.weightedBy_singleton src⟩
      simpa [PartySet.member, PartySet.singleton] using Ne.symm other
  | some ps =>
      -- the parties who saw it weigh their sum, so adding `src` does not wrap
      have weighted := inv.saw_weighted c sp ps found
      simp only [PartySet.insertLookup_eq]
      refine ⟨by simp [PartySet.member_insert], fun q other => ?_, fun ps' same => ?_, trivial,
        fun present => ?_, weighted.insert fits src⟩
      · simp [PartySet.member_insert, Ne.symm other]
      · cases same
        exact weighted.le_insert fits src
      · rw [PartySet.insert, if_pos present]

/-- One nomination of a `Seen` message from `src`: `src` joins those that saw it, and where that
makes the nomination meet its `manySaw` condition, or be seen justified from `src`, the handler
settles it. -/
theorem receiveSeen_invariant (fits : WeightsFit inst.partyWeight) {st : CSSState sig}
    (inv : Invariant inst received manySawExempt pendingExempt st) (src : Nat)
    (nomination : Nat × Bool) :
    Invariant inst received manySawExempt pendingExempt
        (receiveSeen inst maxParty src nomination st).2.1 ∧
      Grows st (receiveSeen inst maxParty src nomination st).2.1 := by
  unfold receiveSeen
  lift_lets
  extract_lets sp c w updated st1 checked taken handled
  clear_value sp c
  obtain ⟨isRecorded, others, heavier, weight, already, weighted⟩ : updated.2.2.member src = true ∧
      (∀ q, q ≠ src → updated.2.2.member q = ((st.saw c).lookup sp).any (PartySet.member q)) ∧
      (∀ ps, (st.saw c).lookup sp = some ps → ps.weight ≤ updated.2.2.weight) ∧
      updated.1 = updated.2.2.weight ∧
      (updated.2.1 = true → (st.saw c).lookup sp = some updated.2.2) ∧
      updated.2.2.WeightedBy inst.partyWeight :=
    receiveSeen_recorded fits inv src sp c
  clear_value updated
  have added : Invariant inst received (insert (sp, c) manySawExempt)
      (pendingExempt ∪ {(sp, c, src)}) st1 ∧ Grows st st1 :=
    inv.addSeen isRecorded others heavier weighted
  have recordedHere : (st1.saw c).lookup sp = some updated.2.2 :=
    lookup_update_insert_self st.saw c sp _
  split
  · -- `src` was recorded already: nothing changed
    rename_i present
    have same : (st1.saw c).lookup sp = (st.saw c).lookup sp := by
      rw [recordedHere, already present]
    have sameSeen : sawJustified src c sp st1 = sawJustified src c sp st :=
      sawJustified_congr rfl rfl (congrArg (Option.any (PartySet.member src)) same)
    refine ⟨(added.1.settleManySaw fun holds notExempt => ?_).settleWaiting
      fun notExempt m entry found listed => ?_, added.2⟩
    · obtain ⟨justified, input, ps, found, enough⟩ := holds
      exact inv.manySaw_complete sp c ⟨justified, input, ps, same.symm.trans found, enough⟩
        notExempt
    · rw [sameSeen]
      exact inv.pending_unjustified sp c m found src entry listed notExempt
  · split
    · rename_i justifiedInput
      obtain ⟨justified, input⟩ := (Bool.and_eq_true _ _).mp justifiedInput
      have seenNow : sawJustified src c sp st1 = true :=
        sawJustified_eq_true.mpr ⟨justified, input, updated.2.2, recordedHere, isRecorded⟩
      -- the `manySaw` condition of the nomination settled
      have checkedInv : Invariant inst received manySawExempt (pendingExempt ∪ {(sp, c, src)})
          checked.1 ∧ Grows st1 checked.1 := by
        simp only [checked]
        split
        · rename_i enough
          exact ⟨added.1.addManySaw ⟨justified, input, updated.2.2, recordedHere, weight ▸ enough⟩,
            Grows.of_same rfl rfl rfl fun _ set => set⟩
        · rename_i light
          refine ⟨added.1.settleManySaw fun holds _ => ?_, Grows.refl st1⟩
          obtain ⟨-, -, ps, found, enough⟩ := holds
          rw [recordedHere] at found
          cases found
          exact absurd (weight ▸ enough) light
      -- the done-reporting of `src` waiting on the nomination taken out and handled
      obtain ⟨takenInv, takenOnly, takenEntry⟩ := takePending_invariant checkedInv.1
      have grows := added.2.trans (checkedInv.2.trans takenOnly.grows)
      simp only [handled]
      split
      · exact ⟨takenInv, grows⟩
      · rename_i entry isTaken
        obtain ⟨m, waiting, listed⟩ := takenEntry entry isTaken
        have ready := ((checkedInv.1.pending_waits sp c m waiting src entry listed).grows
          takenOnly.grows).next ((checkedInv.2.trans takenOnly.grows).sawJustified seenNow)
        obtain ⟨handledInv, handledOnly⟩ :=
          handleDoneReporting_invariant maxParty takenInv src entry.1 entry.2 ready
        exact ⟨handledInv, grows.trans handledOnly.grows⟩
    · -- not a justified input: nothing to settle
      rename_i notJustified
      refine ⟨(added.1.settleManySaw fun holds _ => ?_).settleWaiting
        fun _ _ _ _ _ => ?_, added.2⟩
      · exact absurd ((Bool.and_eq_true _ _).mpr ⟨holds.1, holds.2.1⟩) notJustified
      · rw [Bool.eq_false_iff]
        intro seen
        obtain ⟨justified, input, -⟩ := sawJustified_eq_true.mp seen
        exact notJustified ((Bool.and_eq_true _ _).mpr ⟨justified, input⟩)

theorem receiveSeens_invariant (fits : WeightsFit inst.partyWeight) (src : Nat) :
    ∀ (nominations : List (Nat × Bool)) (st : CSSState sig),
      Invariant inst received manySawExempt pendingExempt st →
      Invariant inst received manySawExempt pendingExempt
          (receiveSeens inst maxParty src nominations st).2.1 ∧
        Grows st (receiveSeens inst maxParty src nominations st).2.1
  | [], st, inv => ⟨inv, Grows.refl st⟩
  | nomination :: rest, st, inv => by
      obtain ⟨first, firstGrows⟩ := receiveSeen_invariant maxParty fits inv src nomination
      obtain ⟨later, laterGrows⟩ := receiveSeens_invariant fits src rest _ first
      exact ⟨later, firstGrows.trans laterGrows⟩

/-- A message from `src`, one of those `received`. -/
theorem receiveCSSMessage_invariant (fits : WeightsFit inst.partyWeight) {st : CSSState sig}
    (inv : Invariant inst received manySawExempt pendingExempt st) (src : Nat)
    (message : CSSMessage) (signature : sig)
    (sent : CSSInput.receiveCSSMessage src message signature ∈ received) :
    Invariant inst received manySawExempt pendingExempt
        (receiveCSSMessage inst maxParty src message signature st).1 ∧
      Grows st (receiveCSSMessage inst maxParty src message signature st).1 := by
  unfold receiveCSSMessage
  split
  · exact ⟨inv, Grows.refl st⟩
  · cases message with
    | input c =>
        obtain ⟨added, addGrows⟩ := inv.addInput src c signature
        dsimp only
        split
        · rename_i justified
          exact (justifyNomination_invariant maxParty fits added justified
            (congrArg Option.isSome (lookup_update_insert_self st.input c src signature))).imp_right
              addGrows.trans
        · -- an input of a choice not justified yet: nothing to settle
          rename_i unjustified
          refine ⟨(added.settleManySaw fun holds _ => absurd holds.1 unjustified).settlePending
            fun _ _ _ _ _ _ _ isSettled _ => ?_, addGrows⟩
          obtain ⟨-, rfl⟩ := isSettled
          rw [Bool.eq_false_iff]
          intro seen
          exact unjustified (sawJustified_eq_true.mp seen).1
    | seen ns =>
        dsimp only
        obtain ⟨seenInv, seenGrows⟩ :=
          receiveSeens_invariant maxParty fits src (nominationSetToList ns) st inv
        split
        · exact ⟨seenInv, seenGrows⟩
        · exact ⟨seenInv.frame _ _, seenGrows.trans (Grows.of_same rfl rfl rfl fun _ set => set)⟩
    | doneReporting sawSet =>
        -- a done-reporting is handled from its first nomination on
        have ready : ReadyToHandle received st src (nominationSetToList sawSet) ⟨sawSet, signature⟩ :=
          ⟨⟨[], (List.nil_append _).symm, fun _ listed => absurd listed List.not_mem_nil⟩, sent⟩
        exact (handleDoneReporting_invariant maxParty inv src _ _ ready).imp_right
          OnlyReports.grows

/-- One step of the machine keeps the invariant, with its input among those received. -/
theorem step_invariant (fits : WeightsFit inst.partyWeight) {st : CSSState sig}
    (inv : Invariant inst received manySawExempt pendingExempt st) (input : CSSInput sig) :
    Invariant inst (received ++ [input]) manySawExempt pendingExempt
        (step inst maxParty input st).1 ∧
      Grows st (step inst maxParty input st).1 := by
  have inv' := inv.received_mono fun _ listed => List.mem_append_left [input] listed
  cases input with
  | receiveCSSMessage src message signature =>
      exact receiveCSSMessage_invariant maxParty fits inv' src message signature
        (List.mem_append_right received (List.mem_singleton_self _))
  | justifyChoice c => exact justifyChoice_invariant maxParty fits inv' c
  | finishReporting =>
      exact ⟨inv'.frame false st.sawMessages, Grows.of_same rfl rfl rfl fun _ set => set⟩

/-- Every run keeps the invariant, with its inputs among those received. -/
theorem runInputs_invariant (fits : WeightsFit inst.partyWeight) :
    ∀ (inputs before : List (CSSInput sig)) (st : CSSState sig),
      Invariant inst before manySawExempt pendingExempt st →
      Invariant inst (before ++ inputs) manySawExempt pendingExempt
          (runInputs inst maxParty inputs st) ∧
        Grows st (runInputs inst maxParty inputs st)
  | [], before, st, inv => by
      rw [List.append_nil]
      exact ⟨inv, Grows.refl st⟩
  | input :: rest, before, st, inv => by
      obtain ⟨stepped, stepGrows⟩ := step_invariant maxParty fits inv input
      obtain ⟨ran, ranGrows⟩ := runInputs_invariant fits rest _ _ stepped
      rw [List.append_assoc, List.singleton_append] at ran
      exact ⟨ran, stepGrows.trans ranGrows⟩

end Handlers

/-! ## Every run -/

theorem initial_invariant (inst : CSSInstance) :
    Invariant inst ([] : List (CSSInput sig)) ∅ ∅ initialCSSState where
  iSaw_justified p c listed := by
    rw [mem_nominationSetToList] at listed
    cases c <;> simp [initialCSSState, emptyNominationSet] at listed
  iSaw_unique p := by simp [initialCSSState, emptyNominationSet]
  iSawWeight_eq := (Finset.sum_eq_zero fun p listed =>
    absurd (mem_nominatedParties.mp listed) (by simp [initialCSSState, emptyNominationSet])).symm
  manySaw_sound p member := by
    simp [initialCSSState, PartySet.empty, PartySet.member] at member
  manySaw_complete p c holds := absurd holds.1 (by simp [initialCSSState])
  pending_waits s c m found := by cases found
  pending_unjustified s c m found := by cases found
  core_set := fun ⟨q, member⟩ => by
    simp [initialCSSState, PartyMap.empty, PartyMap.member] at member
  justified_done q drd found := by simp [initialCSSState, PartyMap.empty] at found
  saw_weighted c p ps found := by cases found
  justified_weighted := PartyMap.wordWeighted_empty

/-- With the corrupt weight below a third of the total, the threshold
`totalWeight - corruptWeight` is positive, so justified done-reportings that reach it are not
empty, and the core set is chosen. -/
theorem Invariant.core_set_of_weight {inst : CSSInstance} {received : List (CSSInput sig)}
    {manySawExempt : Set (Nat × Bool)} {pendingExempt : Set (Nat × Bool × Nat)}
    {st : CSSState sig} (inv : Invariant inst received manySawExempt pendingExempt st)
    (corrupt : 3 * inst.corruptWeight < inst.totalWeight)
    (enough : inst.totalWeight - inst.corruptWeight ≤ st.justifiedDoneReporting.weight) :
    st.core.isSome :=
  inv.core_set (inv.justified_weighted.exists_member (by omega)) enough

/-- The CSS invariants in every state that a run of `receiveCSSMessage`, `justifyChoice` and
`finishReporting` reaches from `initialCSSState`, for an instance whose corrupt weight is below a
third of its total weight and whose parties' weights together fit a `VoterPower`: the nominations
of `iSaw` are justified inputs, at most one a party, and weigh `iSawWeight`; `manySaw` holds the
parties whose justified nomination enough parties saw; no waiting done-reporting is seen
justified from its sender; a chosen core set stays chosen along any longer run, and one is
chosen once the justified done-reportings weigh enough; and every justified done-reporting was
sent, with all its nominations seen justified. -/
theorem css_invariants_hold_on_every_run (inst : CSSInstance) (maxParty : Nat)
    (corrupt : 3 * inst.corruptWeight < inst.totalWeight) (fits : WeightsFit inst.partyWeight)
    (inputs : List (CSSInput sig)) :
    let st := runInputs inst maxParty inputs initialCSSState
    (∀ p c, (p, c) ∈ nominationSetToList st.iSaw →
        st.justified c = true ∧ p ∈ (st.input c).keys) ∧
      (∀ p, ¬(BitSet.member p st.iSaw.nomTop = true ∧ BitSet.member p st.iSaw.nomBot = true)) ∧
      st.iSawWeight = ∑ p ∈ nominatedParties st.iSaw, inst.partyWeight p ∧
      (∀ p, st.manySaw.member p = true ↔ ∃ c, st.justified c = true ∧ p ∈ (st.input c).keys ∧
        ∃ ps, (st.saw c).lookup p = some ps ∧ inst.totalWeight - inst.corruptWeight ≤ ps.weight) ∧
      (∀ s c m, st.unjustifiedDoneReporting (s, c) = some m →
        ∀ q ∈ m.keys, sawJustified q c s st = false) ∧
      (∀ more cs, st.core = some cs →
        (runInputs inst maxParty (inputs ++ more) initialCSSState).core = some cs) ∧
      (inst.totalWeight - inst.corruptWeight ≤ st.justifiedDoneReporting.weight →
        st.core.isSome) ∧
      (∀ q drd, st.justifiedDoneReporting.partyMap.lookup q = some drd →
        CSSInput.receiveCSSMessage q (.doneReporting drd.nominations) drd.signature ∈ inputs ∧
        ∀ s c, (s, c) ∈ nominationSetToList drd.nominations → sawJustified q c s st = true) := by
  intro st
  obtain ⟨inv, -⟩ :=
    runInputs_invariant maxParty fits inputs [] initialCSSState (initial_invariant inst)
  rw [List.nil_append] at inv
  have keyed : ∀ c p, p ∈ (st.input c).keys ↔ ((st.input c).lookup p).isSome = true :=
    fun c p => by rw [AscMap.mem_keys_iff, Option.isSome_iff_exists]
  refine ⟨fun p c listed => ?_, inv.iSaw_unique, inv.iSawWeight_eq, fun p => ?_, ?_, ?_,
    inv.core_set_of_weight corrupt, ?_⟩
  · obtain ⟨justified, input⟩ := inv.iSaw_justified p c listed
    exact ⟨justified, (keyed c p).mpr input⟩
  · constructor
    · intro member
      obtain ⟨c, justified, input, rest⟩ := inv.manySaw_sound p member
      exact ⟨c, justified, (keyed c p).mpr input, rest⟩
    · rintro ⟨c, justified, input, rest⟩
      exact inv.manySaw_complete p c ⟨justified, (keyed c p).mp input, rest⟩
        (Set.notMem_empty _)
  · intro s c m found q listed
    obtain ⟨entry, waiting⟩ := (AscMap.mem_keys_iff m q).mp listed
    exact inv.pending_unjustified s c m found q entry waiting (Set.notMem_empty _)
  · -- the rest of a longer run starts from `st`, and a chosen core set stays along it
    intro more cs chosen
    rw [runInputs, List.foldl_append]
    exact (runInputs_invariant maxParty fits more inputs st inv).2.core cs chosen
  · intro q drd found
    obtain ⟨⟨done, split, seen⟩, sent⟩ := inv.justified_done q drd found
    rw [List.append_nil] at split
    refine ⟨sent, fun s c listed => ?_⟩
    rw [split] at listed
    exact seen (s, c) listed

/-- One party, of weight `1`, with no corrupt weight. -/
def soleParty : CSSInstance :=
  ⟨1, 0, fun p => if p = 0 then 1 else 0⟩

/-- The nomination of top by party `0`. -/
def topOfZero : NominationSet :=
  ⟨0, BitSet.insert 0 BitSet.empty, BitSet.empty⟩

/-- Party `0` inputs top, top is justified, and party `0` reports having seen its own input and
then that it is done reporting. -/
def soleReport : List (CSSInput Unit) :=
  [.receiveCSSMessage 0 (.input true) (), .justifyChoice true,
    .receiveCSSMessage 0 (.seen topOfZero) (), .receiveCSSMessage 0 (.doneReporting topOfZero) ()]

/-- After the sole party's report, its done-reporting is justified and weighs the threshold, so
the core set is chosen. -/
theorem css_invariants_on_sole_report :
    3 * soleParty.corruptWeight < soleParty.totalWeight ∧ WeightsFit soleParty.partyWeight ∧
      (runInputs soleParty 0 soleReport initialCSSState).core.isSome := by
  have corrupt : 3 * soleParty.corruptWeight < soleParty.totalWeight := by decide
  have fits : WeightsFit soleParty.partyWeight :=
    weightsFit_of_support {0} (fun p outside => if_neg (by simpa using outside)) (by decide)
  -- `BitSet.toList` recurses on the bits by well-founded recursion, which the kernel unfolds
  have weighs : soleParty.totalWeight - soleParty.corruptWeight ≤
      (runInputs soleParty 0 soleReport initialCSSState).justifiedDoneReporting.weight := by
    decide +kernel
  exact ⟨corrupt, fits,
    (css_invariants_hold_on_every_run soleParty 0 corrupt fits soleReport).2.2.2.2.2.2.1 weighs⟩

end Concordium.Afgjort.CSS
