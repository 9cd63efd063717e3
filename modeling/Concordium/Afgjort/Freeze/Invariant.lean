import Concordium.Afgjort.Freeze
import Concordium.Afgjort.Freeze.Tally

/-!
Contract: the invariant of a Freeze instance, and what each change the handlers make to its state
keeps of it. The invariant says:
- the tallies are exact (`Tallies`): the justified proposers and voters are the parties of the
  justified proposals and votes, `distinctJustifiedProposals` counts the justified proposals made
  by some weight, and every weight is the sum of its parties' weights;
- every justified vote is Jvote-justified, and every justified decision Jdec-justified
  (`Justified`): a vote for a value has a justified proposal of the value from parties of weight
  at least `totalWeight - 2 * corruptWeight`, a vote for no value has justified proposals of two
  values and from two parties, and a decision has justified votes of weight above
  `corruptWeight`;
- the output agrees with the state (`Output`): each justified decision is announced, once;
  `Frozen` is output at most once, exactly when the instance is completed, for a justified
  decision and once the justified voters weigh `totalWeight - corruptWeight`; and we vote for a
  value only while it has a justified proposal from parties of weight
  `totalWeight - corruptWeight`.

Owns:
- `VoteJustifiable`, `Decided`, `Tallies`, `Justified`, `Output` and `Holds`; `Grows`, what
  every handler does to what a justification reads: justified proposals and votes stay justified
  with at least their parties, and the justified voters weigh at least what they did; and
  `Advances`, a change that keeps `Holds` and grows;
- one lemma for each change a handler makes (`Holds.setUnjustifiedProposal`,
  `Holds.justifyEmptyProposal`, `Holds.justifyProposal`, `Holds.addJustifiedProposal`, the same
  four for votes, `Holds.decide`, `Holds.finish` and `Holds.send`), through `Holds.ofProposals`
  and `Holds.ofVotes`;
- the `run` equations of the writes through the lenses.

Does not own: the handlers (`Concordium.Afgjort.Freeze`), the tallies' own lemmas
(`Concordium.Afgjort.Freeze.Tally`), or the runs (`Concordium.Afgjort.Freeze.Safety`).
-/

set_option autoImplicit false
set_option linter.dupNamespace false

namespace Concordium.Afgjort.Freeze

open Concordium.Afgjort.WMVBA (FreezeMessage)
open Emit

variable {val sig : Type} [LinearOrder val]

/-! ## The writes -/

section Writes

variable {α : Type} (st : FreezeState val sig)

theorem run_setProposal (value : val) (entry : Bool × PartyMap sig) :
    (setProposal value entry).run st =
      ((), { st with proposals := st.proposals.insert value entry }, []) := rfl

theorem run_setProposal_bind (value : val) (entry : Bool × PartyMap sig)
    (k : Unit → Freeze val sig α) :
    (setProposal value entry >>= k).run st =
      (k ()).run { st with proposals := st.proposals.insert value entry } := rfl

theorem run_setVote (vote : WithBot val) (entry : Bool × PartyMap sig) :
    (setVote vote entry).run st = ((), { st with votes := st.votes.insert vote entry }, []) := rfl

theorem run_setVote_bind (vote : WithBot val) (entry : Bool × PartyMap sig)
    (k : Unit → Freeze val sig α) :
    (setVote vote entry >>= k).run st = (k ()).run { st with votes := st.votes.insert vote entry } :=
  rfl

theorem run_modifyJustifiedProposers_bind (change : PartySet → PartySet)
    (k : PartySet → Freeze val sig α) :
    (modifyJustifiedProposers change >>= k).run st =
      (k (change st.justifiedProposers)).run
        { st with justifiedProposers := change st.justifiedProposers } := rfl

theorem run_modifyJustifiedVoters_bind (change : PartySet → PartySet)
    (k : PartySet → Freeze val sig α) :
    (modifyJustifiedVoters change >>= k).run st =
      (k (change st.justifiedVoters)).run { st with justifiedVoters := change st.justifiedVoters } :=
  rfl

theorem run_countJustifiedProposal_bind (k : Nat → Freeze val sig α) :
    (countJustifiedProposal >>= k).run st =
      (k (1 + st.distinctJustifiedProposals)).run
        { st with distinctJustifiedProposals := 1 + st.distinctJustifiedProposals } := rfl

/-- `currJProps` of `addProposal`: the count of justified proposals, advanced where the proposal
had no weight before, and read where it had. -/
theorem run_currJProps_bind (zero : Prop) [Decidable zero] (k : Nat → Freeze val sig α) :
    (if zero then countJustifiedProposal >>= k
      else MonadState.get >>= fun read => Pure.pure read.distinctJustifiedProposals >>= k).run st =
      (k (if zero then 1 + st.distinctJustifiedProposals else st.distinctJustifiedProposals)).run
        { st with distinctJustifiedProposals :=
            if zero then 1 + st.distinctJustifiedProposals else st.distinctJustifiedProposals } := by
  split <;> rfl

end Writes

/-! ## Justifications -/

section Justifications

variable (inst : FreezeInstance)

/-- What Jvote-justifies a vote, in the proposals: for a value, a justified proposal of it made by
parties of weight at least `totalWeight - 2 * corruptWeight`; for none, justified proposals of
two values made by some weight, and justified proposals from two parties. -/
def VoteJustifiable (proposals : AscMap val (Bool × PartyMap sig)) : WithBot val → Prop
  | none =>
    (∃ value value', value ≠ value' ∧ JustifiedAtLeast proposals value 1 ∧
      JustifiedAtLeast proposals value' 1) ∧
    ∃ party party', party ≠ party' ∧ JustifiedParty proposals party ∧
      JustifiedParty proposals party'
  | some value => JustifiedAtLeast proposals value (inst.totalWeight - 2 * inst.corruptWeight)

/-- A justification holds of proposals that have grown. -/
theorem VoteJustifiable.kept {proposals proposals' : AscMap val (Bool × PartyMap sig)}
    (kept : Kept proposals proposals') :
    ∀ {vote : WithBot val}, VoteJustifiable inst proposals vote →
      VoteJustifiable inst proposals' vote
  | none, ⟨⟨value, value', differs, justified, justified'⟩,
      party, party', distinct, proposer, proposer'⟩ =>
    ⟨⟨value, value', differs, justified.kept kept, justified'.kept kept⟩,
      party, party', distinct, proposer.kept kept, proposer'.kept kept⟩
  | some _, justified => JustifiedAtLeast.kept kept justified

end Justifications

/-- The decision is justified. -/
def Decided (st : FreezeState val sig) (decision : WithBot val) : Prop :=
  (st.justifiedDecisions.lookup decision).isSome = true

theorem decided_insert (st : FreezeState val sig) (decision other : WithBot val) :
    Decided { st with justifiedDecisions := st.justifiedDecisions.insert decision () } other ↔
      other = decision ∨ Decided st other := by
  unfold Decided
  rw [AscMap.lookup_insert]
  by_cases same : other = decision <;> simp [same]

/-- The decision a `Frozen` event outputs. -/
@[simp] def FreezeOutputEvent.frozenDecision : FreezeOutputEvent val → Option (WithBot val)
  | .SendFreezeMessage _ => none
  | .Frozen decision => some decision
  | .DecisionJustified _ => none

/-- The decision a `DecisionJustified` event announces. -/
@[simp] def FreezeOutputEvent.announcedDecision : FreezeOutputEvent val → Option (WithBot val)
  | .SendFreezeMessage _ => none
  | .Frozen _ => none
  | .DecisionJustified decision => some decision

/-! ## The invariant -/

section Invariant

variable (inst : FreezeInstance)

/-- The tallies of the proposals and of the votes are exact. -/
structure Tallies (st : FreezeState val sig) : Prop where
  proposals : Tallied inst.partyWeight st.proposals st.justifiedProposers
  distinct : st.distinctJustifiedProposals = justifiedCount st.proposals
  votes : Tallied inst.partyWeight st.votes st.justifiedVoters

/-- Every justified vote is Jvote-justified, and every justified decision is Jdec-justified: its
justified votes weigh more than the corrupt weight. -/
structure Justified (st : FreezeState val sig) : Prop where
  votes : ∀ vote parties, st.votes.lookup vote = some (true, parties) →
    VoteJustifiable inst st.proposals vote
  decisions : ∀ decision, Decided st decision →
    JustifiedAtLeast st.votes decision (inst.corruptWeight + 1)

/-- What the events output so far say of the state. -/
structure Output (st : FreezeState val sig) (log : List (FreezeOutputEvent val)) : Prop where
  announced : ∀ decision, .DecisionJustified decision ∈ log ↔ Decided st decision
  announcedOnce : (log.filterMap FreezeOutputEvent.announcedDecision).Nodup
  completed : st.completed = true ↔ ∃ decision, .Frozen decision ∈ log
  frozenOnce : (log.filterMap FreezeOutputEvent.frozenDecision).length ≤ 1
  frozenDecided : ∀ decision, .Frozen decision ∈ log → Decided st decision
  finished : st.completed = true →
    inst.totalWeight - inst.corruptWeight ≤ st.justifiedVoters.weight
  voted : ∀ value, .SendFreezeMessage (.Vote (some value)) ∈ log →
    JustifiedAtLeast st.proposals value (inst.totalWeight - inst.corruptWeight)

/-- The invariant, kept together: the justifications read the tallies, and the output the
justified decisions. -/
structure Holds (st : FreezeState val sig) (log : List (FreezeOutputEvent val)) : Prop where
  tallies : Tallies inst st
  justified : Justified inst st
  output : Output inst st log

end Invariant

/-- What the handlers do to what a justification reads: the justified proposals and votes stay
justified with at least their parties, the justified voters weigh at least what they did, and no
party of a proposal or a vote is ever dropped. -/
structure Grows (st st' : FreezeState val sig) : Prop where
  proposals : Kept st.proposals st'.proposals
  votes : Kept st.votes st'.votes
  voters : st.justifiedVoters.weight ≤ st'.justifiedVoters.weight
  proposalParties : Extends st.proposals st'.proposals
  voteParties : Extends st.votes st'.votes

theorem Grows.refl (st : FreezeState val sig) : Grows st st :=
  ⟨Kept.refl _, Kept.refl _, le_rfl, Extends.refl _, Extends.refl _⟩

theorem Grows.trans {first second third : FreezeState val sig} (grown : Grows first second)
    (grown' : Grows second third) : Grows first third :=
  ⟨grown.proposals.trans grown'.proposals, grown.votes.trans grown'.votes,
    grown.voters.trans grown'.voters, grown.proposalParties.trans grown'.proposalParties,
    grown.voteParties.trans grown'.voteParties⟩

/-- A change from `st` to `st'` that keeps the invariant, with the log `log`, and grows. -/
structure Advances (inst : FreezeInstance) (st st' : FreezeState val sig)
    (log : List (FreezeOutputEvent val)) : Prop where
  holds : Holds inst st' log
  grows : Grows st st'

/-! ## What each change keeps -/

section Changes

variable {inst : FreezeInstance} {st st' : FreezeState val sig} {log : List (FreezeOutputEvent val)}

theorem Output.frame (output : Output inst st log) (kept : Kept st.proposals st'.proposals)
    (voters : st.justifiedVoters.weight ≤ st'.justifiedVoters.weight)
    (decisions : st'.justifiedDecisions = st.justifiedDecisions)
    (completed : st'.completed = st.completed) : Output inst st' log where
  announced := by simpa only [Decided, decisions] using output.announced
  announcedOnce := output.announcedOnce
  completed := by
    rw [completed]
    exact output.completed
  frozenOnce := output.frozenOnce
  frozenDecided := by simpa only [Decided, decisions] using output.frozenDecided
  finished := fun done => (output.finished (completed.symm.trans done)).trans voters
  voted := fun value sent => (output.voted value sent).kept kept

/-- A change of the proposals and their tallies alone. -/
theorem Holds.ofProposals (holds : Holds inst st log)
    (tallied : Tallied inst.partyWeight st'.proposals st'.justifiedProposers)
    (distinct : st'.distinctJustifiedProposals = justifiedCount st'.proposals)
    (kept : Kept st.proposals st'.proposals) (extended : Extends st.proposals st'.proposals)
    (votes : st'.votes = st.votes)
    (voters : st'.justifiedVoters = st.justifiedVoters)
    (decisions : st'.justifiedDecisions = st.justifiedDecisions)
    (completed : st'.completed = st.completed) : Advances inst st st' log := by
  have votesTallied : Tallied inst.partyWeight st'.votes st'.justifiedVoters := by
    rw [votes, voters]
    exact holds.tallies.votes
  refine ⟨⟨⟨tallied, distinct, votesTallied⟩,
    ⟨fun vote parties found => ?_, fun decision decided => ?_⟩,
    holds.output.frame kept (by rw [voters]) decisions completed⟩,
    ⟨kept, by rw [votes]; exact Kept.refl _, by rw [voters], extended,
      by rw [votes]; exact Extends.refl _⟩⟩
  · rw [votes] at found
    exact (holds.justified.votes vote parties found).kept inst kept
  · rw [votes]
    exact holds.justified.decisions decision (by simpa only [Decided, decisions] using decided)

/-- A change of the votes and their tally alone, each justified vote justified before or
justifiable. -/
theorem Holds.ofVotes (holds : Holds inst st log)
    (tallied : Tallied inst.partyWeight st'.votes st'.justifiedVoters)
    (kept : Kept st.votes st'.votes) (extended : Extends st.votes st'.votes)
    (justifiable : ∀ vote parties, st'.votes.lookup vote = some (true, parties) →
      (∃ old, st.votes.lookup vote = some (true, old)) ∨ VoteJustifiable inst st.proposals vote)
    (proposals : st'.proposals = st.proposals)
    (proposers : st'.justifiedProposers = st.justifiedProposers)
    (distinct : st'.distinctJustifiedProposals = st.distinctJustifiedProposals)
    (voters : st.justifiedVoters.weight ≤ st'.justifiedVoters.weight)
    (decisions : st'.justifiedDecisions = st.justifiedDecisions)
    (completed : st'.completed = st.completed) : Advances inst st st' log := by
  have proposalsTallied : Tallied inst.partyWeight st'.proposals st'.justifiedProposers := by
    rw [proposals, proposers]
    exact holds.tallies.proposals
  have proposalsKept : Kept st.proposals st'.proposals := by
    rw [proposals]
    exact Kept.refl _
  have proposalsExtended : Extends st.proposals st'.proposals := by
    rw [proposals]
    exact Extends.refl _
  refine ⟨⟨⟨proposalsTallied, by rw [distinct, proposals]; exact holds.tallies.distinct, tallied⟩,
    ⟨fun vote parties found => ?_, fun decision decided => ?_⟩,
    holds.output.frame proposalsKept voters decisions completed⟩,
    ⟨proposalsKept, kept, voters, proposalsExtended, extended⟩⟩
  · rw [proposals]
    rcases justifiable vote parties found with ⟨old, before⟩ | justified
    · exact holds.justified.votes vote old before
    · exact justified
  · exact (holds.justified.decisions decision
      (by simpa only [Decided, decisions] using decided)).kept kept

/-- A proposal that was not justified is replaced by one that is not. -/
theorem Holds.setUnjustifiedProposal (holds : Holds inst st log) {value : val}
    (notJustified : ∀ parties, st.proposals.lookup value ≠ some (true, parties))
    {parties : PartyMap sig} (recorded : Recorded inst.partyWeight parties)
    (extended : Extends st.proposals (st.proposals.insert value (false, parties))) :
    Advances inst st { st with proposals := st.proposals.insert value (false, parties) } log := by
  refine holds.ofProposals (holds.tallies.proposals.setUnjustified notJustified recorded) ?_
    (kept_insert_of_not_justified notJustified _) extended rfl rfl rfl rfl
  rw [justifiedCount_insert_of_not_counted (not_counted_of_not_justified notJustified) rfl]
  exact holds.tallies.distinct

/-- A proposal that was not justified is justified with no parties. -/
theorem Holds.justifyEmptyProposal (holds : Holds inst st log) {value : val}
    (notJustified : ∀ parties, st.proposals.lookup value ≠ some (true, parties))
    {parties : PartyMap sig} (recorded : Recorded inst.partyWeight parties)
    (zero : parties.weight = 0)
    (extended : Extends st.proposals (st.proposals.insert value (true, parties))) :
    Advances inst st { st with proposals := st.proposals.insert value (true, parties) } log := by
  have uncounted : countsJustified (value, (true, parties)) = false := by
    simp [countsJustified, zero]
  refine holds.ofProposals (holds.tallies.proposals.justifyEmpty notJustified recorded
    (recorded.not_member_of_weight_eq_zero zero)) ?_ (kept_insert_of_not_justified notJustified _)
    extended rfl rfl rfl rfl
  rw [justifiedCount_insert_of_not_counted (not_counted_of_not_justified notJustified) uncounted]
  exact holds.tallies.distinct

/-- A proposal made by some weight is justified: its parties join the justified proposers, and it
is counted. -/
theorem Holds.justifyProposal (holds : Holds inst st log) {value : val} {parties : PartyMap sig}
    (found : st.proposals.lookup value = some (false, parties)) (positive : 0 < parties.weight) :
    Advances inst st
      { st with
        proposals := st.proposals.insert value (true, parties)
        justifiedProposers := PartySet.union inst.partyWeight parties.keysSet st.justifiedProposers
        distinctJustifiedProposals := 1 + st.distinctJustifiedProposals } log := by
  have notJustified : ∀ others, st.proposals.lookup value ≠ some (true, others) := fun others => by
    rw [found]
    simp
  refine holds.ofProposals (holds.tallies.proposals.justify inst.weightsFit found) ?_
    (kept_insert_of_not_justified notJustified _) (extends_insert_same found true) rfl rfl rfl rfl
  have recount := justifiedCount_insert_of_lookup found (true, parties)
  simp only [countsJustified, positive, decide_true, Bool.and_true, Bool.false_eq_true,
    if_false, if_true] at recount
  have distinct := holds.tallies.distinct
  show 1 + st.distinctJustifiedProposals = justifiedCount (st.proposals.insert value (true, parties))
  omega

/-- A party is added to a justified proposal and to the justified proposers; the proposal is
counted now if it had no weight before. -/
theorem Holds.addJustifiedProposal (holds : Holds inst st log) {value : val}
    {parties : PartyMap sig} (found : st.proposals.lookup value = some (true, parties))
    {party : Nat} (positive : 0 < inst.partyWeight party) (absent : parties.member party = false)
    (signature : sig) (distinct' : Nat)
    (counted : distinct' = if parties.weight = 0 then 1 + st.distinctJustifiedProposals
      else st.distinctJustifiedProposals) :
    Advances inst st
      { st with
        proposals := st.proposals.insert value
          (true, parties.insert party (inst.partyWeight party) signature)
        justifiedProposers := st.justifiedProposers.insert party (inst.partyWeight party)
        distinctJustifiedProposals := distinct' } log := by
  refine holds.ofProposals (holds.tallies.proposals.add inst.weightsFit found positive signature) ?_
    (kept_insert_add found (holds.tallies.proposals.recorded value _ found).weighted
      inst.weightsFit _ _) (extends_insert_add found true _ _ _) rfl rfl rfl rfl
  have recount := justifiedCount_insert_of_lookup found
    (true, parties.insert party (inst.partyWeight party) signature)
  -- the parties weigh their exact sum, so adding one adds its weight
  have exact := (holds.tallies.proposals.recorded value _ found).weighted.add_of_not_member
    inst.weightsFit absent
  rw [PartyMap.insert_of_member_eq_false absent] at recount ⊢
  simp only [exact] at recount ⊢
  have heavier : 0 < parties.weight + inst.partyWeight party := by omega
  simp only [countsJustified, Bool.true_and, decide_eq_true_eq, heavier, if_true] at recount
  have distinct := holds.tallies.distinct
  show distinct' = justifiedCount (st.proposals.insert value _)
  by_cases zero : parties.weight = 0
  · rw [if_neg (by omega : ¬0 < parties.weight)] at recount
    rw [if_pos zero] at counted
    omega
  · rw [if_pos (by omega : 0 < parties.weight)] at recount
    rw [if_neg zero] at counted
    omega

/-- After a change of the vote for `vote` to `(flag, parties)`, a justified vote was justified
before or is `vote`, justifiable. -/
theorem justifiable_insert {votes : AscMap (WithBot val) (Bool × PartyMap sig)}
    {proposals : AscMap val (Bool × PartyMap sig)} {vote : WithBot val} {flag : Bool}
    {parties : PartyMap sig}
    (justifiable : flag = true →
      (∃ old, votes.lookup vote = some (true, old)) ∨ VoteJustifiable inst proposals vote) :
    ∀ other others, (votes.insert vote (flag, parties)).lookup other = some (true, others) →
      (∃ old, votes.lookup other = some (true, old)) ∨ VoteJustifiable inst proposals other := by
  intro other others found
  rw [AscMap.lookup_insert] at found
  split at found
  · rename_i same
    subst same
    rw [Option.some_inj, Prod.mk.injEq] at found
    exact justifiable found.1
  · exact .inl ⟨others, found⟩

/-- A vote that was not justified is replaced by one that is not. -/
theorem Holds.setUnjustifiedVote (holds : Holds inst st log) {vote : WithBot val}
    (notJustified : ∀ parties, st.votes.lookup vote ≠ some (true, parties))
    {parties : PartyMap sig} (recorded : Recorded inst.partyWeight parties)
    (extended : Extends st.votes (st.votes.insert vote (false, parties))) :
    Advances inst st { st with votes := st.votes.insert vote (false, parties) } log :=
  holds.ofVotes (holds.tallies.votes.setUnjustified notJustified recorded)
    (kept_insert_of_not_justified notJustified _) extended
    (justifiable_insert fun unjustified => absurd unjustified Bool.false_ne_true) rfl rfl rfl le_rfl
    rfl rfl

/-- A vote seen for the first time is justified, with no parties yet. -/
theorem Holds.justifyEmptyVote (holds : Holds inst st log) {vote : WithBot val}
    (absent : st.votes.lookup vote = none)
    (justifiable : VoteJustifiable inst st.proposals vote) :
    Advances inst st { st with votes := st.votes.insert vote (true, PartyMap.empty) } log := by
  have notJustified : ∀ parties, st.votes.lookup vote ≠ some (true, parties) := fun parties => by
    rw [absent]
    simp
  exact holds.ofVotes (holds.tallies.votes.justifyEmpty notJustified Recorded.empty
      PartyMap.member_empty) (kept_insert_of_not_justified notJustified _)
    (extends_insert_of_lookup_eq_none absent _)
    (justifiable_insert fun _ => .inr justifiable) rfl rfl rfl le_rfl rfl rfl

/-- A vote is justified: its parties join the justified voters. -/
theorem Holds.justifyVote (holds : Holds inst st log) {vote : WithBot val}
    {parties : PartyMap sig} (found : st.votes.lookup vote = some (false, parties))
    (justifiable : VoteJustifiable inst st.proposals vote) :
    Advances inst st
      { st with
        votes := st.votes.insert vote (true, parties)
        justifiedVoters := PartySet.union inst.partyWeight parties.keysSet st.justifiedVoters } log := by
  have notJustified : ∀ others, st.votes.lookup vote ≠ some (true, others) := fun others => by
    rw [found]
    simp
  exact holds.ofVotes (holds.tallies.votes.justify inst.weightsFit found)
    (kept_insert_of_not_justified notJustified _) (extends_insert_same found true)
    (justifiable_insert fun _ => .inr justifiable)
    rfl rfl rfl ((PartyMap.keysSet_weightedBy (holds.tallies.votes.recorded vote _ found).weighted).le_union
      holds.tallies.votes.weighted inst.weightsFit) rfl rfl

/-- A party is added to a justified vote and to the justified voters. -/
theorem Holds.addJustifiedVote (holds : Holds inst st log) {vote : WithBot val}
    {parties : PartyMap sig} (found : st.votes.lookup vote = some (true, parties)) {party : Nat}
    (positive : 0 < inst.partyWeight party) (signature : sig) :
    Advances inst st
      { st with
        votes := st.votes.insert vote (true, parties.insert party (inst.partyWeight party) signature)
        justifiedVoters := st.justifiedVoters.insert party (inst.partyWeight party) } log :=
  holds.ofVotes (holds.tallies.votes.add inst.weightsFit found positive signature)
    (kept_insert_add found (holds.tallies.votes.recorded vote _ found).weighted inst.weightsFit _ _)
    (extends_insert_add found true _ _ _)
    (justifiable_insert fun _ => .inl ⟨parties, found⟩) rfl rfl rfl
    (holds.tallies.votes.weighted.le_insert inst.weightsFit party) rfl rfl

/-- A decision backed by justified votes of more than the corrupt weight is justified, and
announced. -/
theorem Holds.decide (holds : Holds inst st log) {decision : WithBot val}
    (fresh : ¬Decided st decision)
    (backed : JustifiedAtLeast st.votes decision (inst.corruptWeight + 1)) :
    Advances inst st { st with justifiedDecisions := st.justifiedDecisions.insert decision () }
      (log ++ [.DecisionJustified decision]) where
  holds := {
    tallies := ⟨holds.tallies.proposals, holds.tallies.distinct, holds.tallies.votes⟩
    justified := ⟨holds.justified.votes, fun other decided => by
      rcases (decided_insert st decision other).mp decided with same | old
      · exact same ▸ backed
      · exact holds.justified.decisions other old⟩
    output := {
      announced := fun other => by
        rw [decided_insert, List.mem_append, List.mem_singleton, holds.output.announced,
          FreezeOutputEvent.DecisionJustified.injEq, or_comm]
      announcedOnce := by
        rw [List.filterMap_append]
        refine List.nodup_append.mpr ⟨holds.output.announcedOnce, by simp, ?_⟩
        intro earlier listed later now same
        simp only [List.filterMap_cons, FreezeOutputEvent.announcedDecision, List.filterMap_nil,
          List.mem_singleton] at now
        obtain ⟨event, logged, announces⟩ := List.mem_filterMap.mp listed
        cases event <;> simp only [FreezeOutputEvent.announcedDecision, reduceCtorEq,
          Option.some_inj] at announces
        subst announces now same
        exact fresh ((holds.output.announced _).mp logged)
      completed := by simpa using holds.output.completed
      frozenOnce := by simpa [List.filterMap_cons] using holds.output.frozenOnce
      frozenDecided := fun other frozen => (decided_insert st decision other).mpr
        (.inr (holds.output.frozenDecided other (by simpa using frozen)))
      finished := holds.output.finished
      voted := fun value sent => holds.output.voted value (by simpa using sent) } }
  grows := ⟨Kept.refl _, Kept.refl _, le_rfl, Extends.refl _, Extends.refl _⟩

/-- The protocol completes with a justified decision, output as `Frozen`. -/
theorem Holds.finish (holds : Holds inst st log) (pending : st.completed = false)
    (enough : inst.totalWeight - inst.corruptWeight ≤ st.justifiedVoters.weight)
    {decision : WithBot val} (decided : Decided st decision) :
    Advances inst st { st with completed := true } (log ++ [.Frozen decision]) where
  holds := {
    tallies := ⟨holds.tallies.proposals, holds.tallies.distinct, holds.tallies.votes⟩
    justified := ⟨holds.justified.votes, holds.justified.decisions⟩
    output := {
      announced := fun other => by simpa [Decided] using holds.output.announced other
      announcedOnce := by simpa [List.filterMap_cons] using holds.output.announcedOnce
      completed := iff_of_true rfl ⟨decision, List.mem_append_right _ (List.mem_singleton_self _)⟩
      frozenOnce := by
        -- nothing was frozen before, since the instance was not completed
        have nothing : log.filterMap FreezeOutputEvent.frozenDecision = [] := by
          rw [List.filterMap_eq_nil_iff]
          intro event logged
          cases event with
          | Frozen other =>
            rw [← Bool.not_eq_true, holds.output.completed] at pending
            exact absurd ⟨other, logged⟩ pending
          | SendFreezeMessage _ => rfl
          | DecisionJustified _ => rfl
        simp [nothing]
      frozenDecided := fun other frozen => by
        rw [List.mem_append, List.mem_singleton, FreezeOutputEvent.Frozen.injEq] at frozen
        rcases frozen with old | same
        · exact holds.output.frozenDecided other old
        · exact same ▸ decided
      finished := fun _ => enough
      voted := fun value sent => holds.output.voted value (by simpa using sent) } }
  grows := ⟨Kept.refl _, Kept.refl _, le_rfl, Extends.refl _, Extends.refl _⟩

/-- A message sent that is a vote for a value only while the value has a justified proposal
from parties of weight `totalWeight - corruptWeight`. -/
theorem Holds.send (holds : Holds inst st log) (message : FreezeMessage val)
    (voted : ∀ value, message = .Vote (some value) →
      JustifiedAtLeast st.proposals value (inst.totalWeight - inst.corruptWeight)) :
    Holds inst st (log ++ [.SendFreezeMessage message]) where
  tallies := holds.tallies
  justified := holds.justified
  output := {
    announced := fun other => by simpa [Decided] using holds.output.announced other
    announcedOnce := by simpa [List.filterMap_cons] using holds.output.announcedOnce
    completed := by simpa using holds.output.completed
    frozenOnce := by simpa [List.filterMap_cons] using holds.output.frozenOnce
    frozenDecided := fun other frozen => holds.output.frozenDecided other (by simpa using frozen)
    finished := holds.output.finished
    voted := fun value sent => by
      rw [List.mem_append, List.mem_singleton, FreezeOutputEvent.SendFreezeMessage.injEq] at sent
      rcases sent with old | now
      · exact holds.output.voted value old
      · exact voted value now.symm }

end Changes

end Concordium.Afgjort.Freeze
