import Concordium.Afgjort.Freeze.CatchUp

/-!
Contract: Freeze records exactly the messages it is given. After each operation, the parties of
the proposals and votes are those there before, and those of the messages the operation brings,
signed and from a party of some weight: none for a candidate or a proposal of our own, the message
for a message received, and the messages with valid signatures for a summary
(`freeze_step_records_exactly`).

Owns:
- `Within origin proposalOk voteOk st`: every party of a proposal or a vote of `st` was one in
  `origin`, or is allowed, with `Within.refl`, `Within.trans`, and one lemma for each write
  (`Within.frame`, `Within.setProposal`, `Within.setVote`);
- `Confined proposalOk voteOk m`: from every state, `m` lists no party but those allowed, with the
  rules `Confined.pure`, `Confined.bind`, `Confined.ite`, `Confined.forM` and `Confined.mapM`, and
  one lemma for each handler;
- `FreezeInput.Proposes` and `FreezeInput.Votes`: the messages an operation brings, with
  `summaryVotes`; `stepFreeze_confined`: an operation lists no other party, and
  `stepFreeze_records`: it lists these; and `freeze_step_records_exactly`, with a catch-up on the
  sample run.

Does not own: that what an operation brings is recorded (`Concordium.Afgjort.Freeze.CatchUp`,
`addProposal_secures`, `addVote_secures`).
-/

set_option autoImplicit false
set_option linter.dupNamespace false

namespace Concordium.Afgjort.Freeze

open Concordium.Afgjort.WMVBA (FreezeMessage)
open Emit

variable {val sig : Type} [LinearOrder val]

/-! ## Parties that were there, or are allowed -/

/-- Every party of a proposal or a vote of `st` was one in `origin`, or is allowed. -/
structure Within (origin : FreezeState val sig) (proposalOk : val → Nat → Prop)
    (voteOk : WithBot val → Nat → Prop) (st : FreezeState val sig) : Prop where
  proposals : ∀ value party, Listed st.proposals value party →
    Listed origin.proposals value party ∨ proposalOk value party
  votes : ∀ vote party, Listed st.votes vote party →
    Listed origin.votes vote party ∨ voteOk vote party

section Within

variable {proposalOk : val → Nat → Prop} {voteOk : WithBot val → Nat → Prop}
  {origin st st' : FreezeState val sig}

theorem Within.refl (st : FreezeState val sig) : Within st proposalOk voteOk st :=
  ⟨fun _ _ listed => .inl listed, fun _ _ listed => .inl listed⟩

theorem Within.trans {third : FreezeState val sig} (within : Within origin proposalOk voteOk st)
    (within' : Within st proposalOk voteOk third) : Within origin proposalOk voteOk third where
  proposals value party listed := (within'.proposals value party listed).elim
    (within.proposals value party) .inr
  votes vote party listed := (within'.votes vote party listed).elim (within.votes vote party) .inr

/-- A change that leaves the proposals and the votes alone. -/
theorem Within.frame (proposals : st'.proposals = st.proposals) (votes : st'.votes = st.votes) :
    Within st proposalOk voteOk st' where
  proposals _ _ listed := .inl (proposals ▸ listed)
  votes _ _ listed := .inl (votes ▸ listed)

/-- A change of the proposal for `value` to one whose parties were there or are allowed. -/
theorem Within.setProposal {value : val} {entry : Bool × PartyMap sig}
    (proposals : st'.proposals = st.proposals.insert value entry) (votes : st'.votes = st.votes)
    (bounded : ∀ party, entry.2.member party = true →
      Listed st.proposals value party ∨ proposalOk value party) :
    Within st proposalOk voteOk st' where
  proposals other party listed := by
    rw [proposals, listed_insert] at listed
    rcases listed with ⟨rfl, member⟩ | ⟨-, before⟩
    · exact bounded party member
    · exact .inl before
  votes _ _ listed := .inl (votes ▸ listed)

/-- A change of the vote for `vote` to one whose parties were there or are allowed. -/
theorem Within.setVote {vote : WithBot val} {entry : Bool × PartyMap sig}
    (proposals : st'.proposals = st.proposals) (votes : st'.votes = st.votes.insert vote entry)
    (bounded : ∀ party, entry.2.member party = true →
      Listed st.votes vote party ∨ voteOk vote party) :
    Within st proposalOk voteOk st' where
  proposals _ _ listed := .inl (proposals ▸ listed)
  votes other party listed := by
    rw [votes, listed_insert] at listed
    rcases listed with ⟨rfl, member⟩ | ⟨-, before⟩
    · exact bounded party member
    · exact .inl before

end Within

/-! ## Computations that list only what is allowed -/

/-- From every state, `m` lists no party of a proposal or a vote but those there before and those
allowed. -/
def Confined {α : Type} (proposalOk : val → Nat → Prop) (voteOk : WithBot val → Nat → Prop)
    (m : Freeze val sig α) : Prop :=
  ∀ st, Within st proposalOk voteOk (m.run st).2.1

section Rules

variable {proposalOk : val → Nat → Prop} {voteOk : WithBot val → Nat → Prop}

/-- What a computation lists from the state that a write left. -/
theorem Confined.after {α : Type} {m : Freeze val sig α} (rest : Confined proposalOk voteOk m)
    {origin mid : FreezeState val sig} (first : Within origin proposalOk voteOk mid) :
    Within origin proposalOk voteOk (m.run mid).2.1 :=
  first.trans (rest mid)

theorem Confined.pure {α : Type} (value : α) :
    Confined proposalOk voteOk (Pure.pure value : Freeze val sig α) :=
  fun st => Within.refl st

theorem Confined.bind {α β : Type} {m : Freeze val sig α} {k : α → Freeze val sig β}
    (first : Confined proposalOk voteOk m) (rest : ∀ value, Confined proposalOk voteOk (k value)) :
    Confined proposalOk voteOk (m >>= k) :=
  fun st => (first st).trans (rest (m.run st).1 (m.run st).2.1)

theorem Confined.ite {α : Type} {c : Prop} [Decidable c] {yes no : Freeze val sig α}
    (whenYes : c → Confined proposalOk voteOk yes) (whenNo : ¬c → Confined proposalOk voteOk no) :
    Confined proposalOk voteOk (if c then yes else no) := by
  by_cases holds : c
  · rw [if_pos holds]
    exact whenYes holds
  · rw [if_neg holds]
    exact whenNo holds

/-- An `if` of a handler with more to do after it, as `do` writes it: the rest is a join point. -/
theorem Confined.ite_bind {c : Prop} [Decidable c] {m : Freeze val sig Unit}
    {k : Unit → Freeze val sig Unit} (yes : Confined proposalOk voteOk m)
    (rest : Confined proposalOk voteOk (k ())) :
    Confined proposalOk voteOk (if c then m >>= k else k ()) :=
  Confined.ite (fun _ => yes.bind fun _ => rest) fun _ => rest

theorem Confined.forM {δ : Type} {body : δ → Freeze val sig PUnit} (items : List δ)
    (confined : ∀ item ∈ items, Confined proposalOk voteOk (body item)) :
    Confined proposalOk voteOk (items.forM body) := by
  induction items with
  | nil => exact Confined.pure ()
  | cons head rest inductionHypothesis =>
    show Confined proposalOk voteOk (body head >>= fun _ => rest.forM body)
    exact (confined head List.mem_cons_self).bind fun _ =>
      inductionHypothesis fun other later => confined other (List.mem_cons_of_mem head later)

theorem Confined.mapM {δ γ : Type} {body : δ → Freeze val sig γ} (items : List δ)
    (confined : ∀ item ∈ items, Confined proposalOk voteOk (body item)) :
    Confined proposalOk voteOk (items.mapM body) := by
  -- `mapM` is its loop with an accumulator, which `Within` does not read
  suffices loop : ∀ (rest : List δ), (∀ item ∈ rest, Confined proposalOk voteOk (body item)) →
      ∀ done, Confined proposalOk voteOk (List.mapM.loop body rest done) from
    loop items confined []
  intro rest
  induction rest with
  | nil => exact fun _ done => Confined.pure done.reverse
  | cons head rest inductionHypothesis =>
    intro confinedAll done
    show Confined proposalOk voteOk
      (body head >>= fun value => List.mapM.loop body rest (value :: done))
    exact (confinedAll head List.mem_cons_self).bind fun value =>
      inductionHypothesis (fun other later => confinedAll other (List.mem_cons_of_mem head later))
        (value :: done)

end Rules

/-! ## What each handler lists -/

section Handlers

variable {κ : Type} [LinearOrder κ] {ok : κ → Nat → Prop}

/-- The party of a new entry is allowed. -/
theorem bounded_singleton {entries : AscMap κ (Bool × PartyMap sig)} {key : κ} {party vp : Nat}
    {signature : sig} (allowed : ok key party) (flag : Bool) :
    ∀ other, (flag, PartyMap.singleton party vp signature).2.member other = true →
      Listed entries key other ∨ ok key other := by
  intro other member
  rw [PartyMap.member_singleton, decide_eq_true_iff] at member
  exact .inr (member ▸ allowed)

/-- The parties of an entry with an allowed party added were there, or are allowed. -/
theorem bounded_insert {entries : AscMap κ (Bool × PartyMap sig)} {key : κ} {flag : Bool}
    {parties : PartyMap sig} (found : entries.lookup key = some (flag, parties)) {party vp : Nat}
    {signature : sig} (allowed : ok key party) (flag' : Bool) :
    ∀ other, (flag', parties.insert party vp signature).2.member other = true →
      Listed entries key other ∨ ok key other :=
  fun _ member => (listed_or_of_member_insert found member).imp id fun same => by
    rw [same]
    exact allowed

/-- The parties of an entry whose flag changes were there. -/
theorem bounded_same {entries : AscMap κ (Bool × PartyMap sig)} {key : κ} {flag : Bool}
    {parties : PartyMap sig} (found : entries.lookup key = some (flag, parties)) (flag' : Bool) :
    ∀ other, (flag', parties).2.member other = true → Listed entries key other ∨ ok key other :=
  fun _ member => .inl ⟨_, found, member⟩

theorem bounded_empty {entries : AscMap κ (Bool × PartyMap sig)} {key : κ} (flag : Bool) :
    ∀ other, (flag, (PartyMap.empty : PartyMap sig)).2.member other = true →
      Listed entries key other ∨ ok key other :=
  fun other member => absurd member (by rw [PartyMap.member_empty]; decide)

variable (inst : FreezeInstance) {proposalOk : val → Nat → Prop}
  {voteOk : WithBot val → Nat → Prop}

theorem justifyDecision_confined (decision : WithBot val) :
    Confined proposalOk voteOk (justifyDecision decision : Freeze val sig Unit) := by
  intro st
  simp only [justifyDecision, run_get_bind]
  split
  · exact Within.refl st
  · rw [run_modify_bind]
    exact Within.frame rfl rfl

theorem doFinish_confined : Confined proposalOk voteOk (doFinish : Freeze val sig Unit) := by
  intro st
  simp only [doFinish, run_get_bind, run_modify_bind]
  split
  · exact Within.frame rfl rfl
  · rw [run_get_bind]
    split
    · rw [run_modify]
      exact Within.frame rfl rfl
    · exact Within.frame rfl rfl

theorem doVote_confined : Confined proposalOk voteOk (doVote inst : Freeze val sig Unit) := by
  intro st
  simp only [doVote, run_get_bind]
  split <;> exact Within.refl st

theorem propose_confined (candidate : val) :
    Confined proposalOk voteOk (propose inst candidate : Freeze val sig Unit) := by
  intro st
  simp only [propose, run_get_bind]
  split <;> exact Within.refl st

/-- The calls at the end of `justifyVote` and `addVote` list no party. -/
theorem justifyDecision_doFinish_confined (vote : WithBot val) (heavy : Prop) [Decidable heavy]
    (enough : Prop) [Decidable enough] :
    Confined proposalOk voteOk
      (if heavy then justifyDecision vote >>= (fun _ => if enough then doFinish else Pure.pure ())
        else if enough then (doFinish : Freeze val sig Unit) else Pure.pure ()) :=
  Confined.ite_bind (justifyDecision_confined vote)
    (Confined.ite (fun _ => doFinish_confined) fun _ => Confined.pure ())

theorem justifyVote_confined (vote : WithBot val) :
    Confined proposalOk voteOk (justifyVote inst vote : Freeze val sig Unit) := by
  intro st
  simp only [justifyVote, run_get_bind]
  split
  · rw [run_setVote]
    exact Within.setVote rfl rfl (bounded_empty true)
  · rename_i parties found
    rw [run_setVote_bind, run_modifyJustifiedVoters_bind]
    exact Confined.after (justifyDecision_doFinish_confined vote _ _)
      (Within.setVote rfl rfl (bounded_same found true))
  · exact Within.refl st

/-- `addVote` lists no party but its own, for its vote. -/
theorem addVote_confined (party : Nat) (vote : WithBot val) (signature : sig)
    (allowed : 0 < inst.partyWeight party → voteOk vote party) :
    Confined proposalOk voteOk (addVote inst party vote signature) := by
  intro st
  unfold addVote
  split
  · rename_i positive
    simp only [run_get_bind]
    split
    · rw [run_setVote]
      exact Within.setVote rfl rfl (bounded_singleton (allowed positive) false)
    · rename_i parties found
      rw [run_setVote]
      exact Within.setVote rfl rfl (bounded_insert found (allowed positive) false)
    · rename_i parties found
      rw [run_setVote_bind, run_modifyJustifiedVoters_bind]
      exact Confined.after (justifyDecision_doFinish_confined vote _ _)
        (Within.setVote rfl rfl (bounded_insert found (allowed positive) true))
  · exact Within.refl st

/-- `addProposal` lists no party but its own, for its value. -/
theorem addProposal_confined (party : Nat) (value : val) (signature : sig)
    (allowed : 0 < inst.partyWeight party → proposalOk value party) :
    Confined proposalOk voteOk (addProposal inst party value signature) := by
  intro st
  unfold addProposal
  split
  · rename_i positive
    simp only [run_get_bind]
    split
    · rw [run_setProposal]
      exact Within.setProposal rfl rfl (bounded_singleton (allowed positive) false)
    · rename_i isCandidate parties found
      split
      · exact Within.refl st
      · rw [run_setProposal_bind]
        cases isCandidate with
        | false =>
          rw [if_neg Bool.false_ne_true, run_pure]
          exact Within.setProposal rfl rfl (bounded_insert found (allowed positive) false)
        | true =>
          rw [if_pos rfl, run_modifyJustifiedProposers_bind, run_currJProps_bind]
          exact Confined.after (Confined.ite_bind (justifyVote_confined inst ⊥)
              (Confined.ite_bind (justifyVote_confined inst (value : WithBot val))
                (Confined.ite (fun _ => doVote_confined inst) fun _ => Confined.pure ())))
            (Within.setProposal rfl rfl (bounded_insert found (allowed positive) true))
  · exact Within.refl st

theorem justifyCandidate_confined (value : val) :
    Confined proposalOk voteOk (justifyCandidate inst value : Freeze val sig Unit) := by
  intro st
  simp only [justifyCandidate, run_get_bind]
  split
  · rw [run_setProposal]
    exact Within.setProposal rfl rfl (bounded_empty true)
  · rename_i parties found
    rw [run_setProposal_bind]
    split
    · rw [run_modifyJustifiedProposers_bind, run_countJustifiedProposal_bind]
      exact Confined.after (Confined.ite_bind (justifyVote_confined inst (value : WithBot val))
          (Confined.ite_bind (justifyVote_confined inst ⊥)
            (Confined.ite (fun _ => doVote_confined inst) fun _ => Confined.pure ())))
        (Within.setProposal rfl rfl (bounded_same found true))
    · rw [run_pure]
      exact Within.setProposal rfl rfl (bounded_same found true)
  · exact Within.refl st

end Handlers

/-! ## What a summary lists -/

section Summary

variable [DecidableEq sig] (inst : FreezeInstance)
  (checkSig : Nat → FreezeMessage val → sig → Bool) {proposalOk : val → Nat → Prop}
  {voteOk : WithBot val → Nat → Prop}

/-- The proposals half of the loop lists no party but those of the summary's proposals with
valid signatures. -/
theorem doProposals_confined (value : val) (props : AscMap Nat sig)
    (allowed : ∀ party signature, props.lookup party = some signature →
      checkSig party (.Proposal value) signature = true → 0 < inst.partyWeight party →
      proposalOk value party) :
    Confined proposalOk voteOk (doProposals inst checkSig value props) := by
  have adds : ∀ entries : List (Nat × sig), (∀ entry ∈ entries,
      props.lookup entry.1 = some entry.2 ∧ checkSig entry.1 (.Proposal value) entry.2 = true) →
      Confined proposalOk voteOk (entries.forM fun entry => addProposal inst entry.1 value entry.2) :=
    fun entries summarized => Confined.forM entries fun entry listed =>
      addProposal_confined inst entry.1 value entry.2
        (allowed _ _ (summarized entry listed).1 (summarized entry listed).2)
  intro st
  unfold doProposals
  dsimp only
  split
  · exact Within.refl st
  · rw [run_get_bind]
    split
    · refine ((adds _ fun entry listed => ?_).bind fun _ => Confined.pure _) st
      obtain ⟨inDifference, valid⟩ := AscMap.mem_filterWithKey.mp listed
      exact ⟨(AscMap.mem_iff_lookup _ _ _).mp (AscMap.mem_of_mem_difference inDifference), valid⟩
    · refine ((adds _ fun entry listed => ?_).bind fun _ => Confined.pure _) st
      obtain ⟨inProps, valid⟩ := AscMap.mem_filterWithKey.mp listed
      exact ⟨(AscMap.mem_iff_lookup _ _ _).mp inProps, valid⟩

/-- A half of the loop for the votes for `jval` lists no party but those of the summary's votes
with valid signatures. -/
theorem doVotes_confined (jval : WithBot val) (vts : AscMap Nat sig)
    (allowed : ∀ party signature, vts.lookup party = some signature →
      checkSig party (.Vote jval) signature = true → 0 < inst.partyWeight party →
      voteOk jval party) :
    Confined proposalOk voteOk (doVotes inst checkSig jval vts) := by
  have adds : ∀ entries : List (Nat × sig), (∀ entry ∈ entries,
      vts.lookup entry.1 = some entry.2 ∧ checkSig entry.1 (.Vote jval) entry.2 = true) →
      Confined proposalOk voteOk (entries.forM fun entry => addVote inst entry.1 jval entry.2) :=
    fun entries summarized => Confined.forM entries fun entry listed =>
      addVote_confined inst entry.1 jval entry.2
        (allowed _ _ (summarized entry listed).1 (summarized entry listed).2)
  intro st
  unfold doVotes
  dsimp only
  split
  · exact Within.refl st
  · rw [run_get_bind]
    split
    · refine ((adds _ fun entry listed => ?_).bind fun _ => Confined.pure _) st
      obtain ⟨inDifference, valid⟩ := AscMap.mem_filterWithKey.mp listed
      exact ⟨(AscMap.mem_iff_lookup _ _ _).mp (AscMap.mem_of_mem_difference inDifference), valid⟩
    · refine ((adds _ fun entry listed => ?_).bind fun _ => Confined.pure _) st
      obtain ⟨inVotes, valid⟩ := AscMap.mem_filterWithKey.mp listed
      exact ⟨(AscMap.mem_iff_lookup _ _ _).mp inVotes, valid⟩

end Summary

/-! ## What an operation brings -/

/-- The votes a summary holds for a vote. -/
def summaryVotes (summary : FreezeSummary val sig) : WithBot val → Option (AscMap Nat sig)
  | none => some summary.summaryBotVotes
  | some value => (summary.summaryProposalsVotes.lookup value).map Prod.snd

/-- The proposals an operation brings: a proposal received from a party of some weight, and the
proposals of a summary with valid signatures from parties of some weight. -/
def FreezeInput.Proposes (inst : FreezeInstance) : FreezeInput val sig → val → Nat → Prop
  | .receiveFreezeMessage party (.Proposal value) _, value', party' =>
    value' = value ∧ party' = party ∧ 0 < inst.partyWeight party
  | .processFreezeSummary summary checkSig, value, party =>
    ∃ props votes signature, summary.summaryProposalsVotes.lookup value = some (props, votes) ∧
      props.lookup party = some signature ∧ checkSig party (.Proposal value) signature = true ∧
      0 < inst.partyWeight party
  | _, _, _ => False

/-- The votes an operation brings, in the same way. -/
def FreezeInput.Votes (inst : FreezeInstance) : FreezeInput val sig → WithBot val → Nat → Prop
  | .receiveFreezeMessage party (.Vote vote) _, vote', party' =>
    vote' = vote ∧ party' = party ∧ 0 < inst.partyWeight party
  | .processFreezeSummary summary checkSig, vote, party =>
    ∃ votes signature, summaryVotes summary vote = some votes ∧
      votes.lookup party = some signature ∧ checkSig party (.Vote vote) signature = true ∧
      0 < inst.partyWeight party
  | _, _, _ => False

section Steps

variable [DecidableEq sig] (inst : FreezeInstance)

theorem processFreezeSummary_confined (checkSig : Nat → FreezeMessage val → sig → Bool)
    (summary : FreezeSummary val sig) :
    Confined (FreezeInput.Proposes inst (.processFreezeSummary summary checkSig))
      (FreezeInput.Votes inst (.processFreezeSummary summary checkSig))
      (processFreezeSummary inst checkSig summary) := by
  unfold processFreezeSummary
  refine (Confined.mapM _ fun entry listed => ?_).bind fun _ =>
    (doVotes_confined inst checkSig ⊥ _ fun party signature signed valid positive =>
      ⟨_, signature, rfl, signed, valid, positive⟩).bind fun _ => Confined.pure _
  have found := (AscMap.mem_iff_lookup _ _ _).mp listed
  have votesFound : summaryVotes summary (entry.1 : WithBot val) = some entry.2.2 := by
    show (summary.summaryProposalsVotes.lookup entry.1).map Prod.snd = some entry.2.2
    rw [found]
    rfl
  exact (doProposals_confined inst checkSig entry.1 entry.2.1 fun party signature signed valid
      positive => ⟨entry.2.1, entry.2.2, signature, found, signed, valid, positive⟩).bind fun _ =>
    (doVotes_confined inst checkSig _ entry.2.2 fun party signature signed valid positive =>
      ⟨entry.2.2, signature, votesFound, signed, valid, positive⟩).bind fun _ => Confined.pure _

/-- An operation lists no party but those of the messages it brings. -/
theorem stepFreeze_confined (node : FreezeNode val sig) (input : FreezeInput val sig) :
    Within node.state (input.Proposes inst) (input.Votes inst) (stepFreeze inst node input).state := by
  cases input with
  | justifyCandidate value => exact justifyCandidate_confined inst value node.state
  | propose candidate => exact propose_confined inst candidate node.state
  | receiveFreezeMessage party message signature =>
    cases message with
    | Proposal value =>
      exact addProposal_confined inst party value signature (fun positive => ⟨rfl, rfl, positive⟩)
        node.state
    | Vote vote =>
      exact addVote_confined inst party vote signature (fun positive => ⟨rfl, rfl, positive⟩)
        node.state
  | processFreezeSummary summary checkSig =>
    exact processFreezeSummary_confined inst checkSig summary node.state

/-- An operation from a state where the invariant holds records the messages it brings. -/
theorem stepFreeze_records {node : FreezeNode val sig}
    (holds : Holds inst node.state node.output) (input : FreezeInput val sig) :
    (∀ value party, input.Proposes inst value party →
      Listed (stepFreeze inst node input).state.proposals value party) ∧
    ∀ vote party, input.Votes inst vote party →
      Listed (stepFreeze inst node input).state.votes vote party := by
  have after : ∀ {α : Type} {goal : FreezeState val sig → Prop} {m : Freeze val sig α},
      Secures inst (fun _ => True) goal m → goal (node.after m).state :=
    fun secures => (secures node.state node.state node.output ⟨holds, Grows.refl _, trivial⟩).2.2
  cases input with
  | justifyCandidate value => exact ⟨fun _ _ => False.elim, fun _ _ => False.elim⟩
  | propose candidate => exact ⟨fun _ _ => False.elim, fun _ _ => False.elim⟩
  | receiveFreezeMessage party message signature =>
    cases message with
    | Proposal value =>
      refine ⟨?_, fun _ _ => False.elim⟩
      rintro value' party' ⟨sameValue, sameParty, positive⟩
      rw [sameValue, sameParty]
      exact after (addProposal_secures inst party value signature) positive
    | Vote vote =>
      refine ⟨fun _ _ => False.elim, ?_⟩
      rintro vote' party' ⟨sameVote, sameParty, positive⟩
      rw [sameVote, sameParty]
      exact after (addVote_secures inst party vote signature) positive
  | processFreezeSummary summary checkSig =>
    refine ⟨?_, ?_⟩
    · rintro value party ⟨props, votes, signature, found, signed, valid, positive⟩
      exact after (processFreezeSummary_secures_proposal inst checkSig summary found signed valid)
        positive
    · rintro vote party ⟨votes, signature, found, signed, valid, positive⟩
      -- the votes for none come from the summary's own field, the others from its values
      cases vote with
      | bot =>
        cases found
        exact after (processFreezeSummary_secures_bot inst checkSig summary signed valid) positive
      | coe value =>
        obtain ⟨⟨props, votes'⟩, found', rfl⟩ := Option.map_eq_some_iff.mp found
        exact after (processFreezeSummary_secures_vote inst checkSig summary found' signed valid)
          positive

/-- From every reachable node, an operation records exactly the messages it brings: after it,
the parties of each proposal and each vote are those before it, and those of the messages it
brings with valid signatures from parties of some weight; no other party is ever listed, and
none is lost. -/
theorem freeze_step_records_exactly {node : FreezeNode val sig}
    (reachable : FreezeReachable inst node) (input : FreezeInput val sig) :
    (∀ value party, Listed (stepFreeze inst node input).state.proposals value party ↔
      Listed node.state.proposals value party ∨ input.Proposes inst value party) ∧
    ∀ vote party, Listed (stepFreeze inst node input).state.votes vote party ↔
      Listed node.state.votes vote party ∨ input.Votes inst vote party := by
  have holds := FreezeReachable.holds inst reachable
  have within := stepFreeze_confined inst node input
  have grown := (stepFreeze_advances inst holds input).2
  have brought := stepFreeze_records inst holds input
  exact ⟨fun value party => ⟨within.proposals value party,
      fun either => either.elim (grown.proposalParties value party) (brought.1 value party)⟩,
    fun vote party => ⟨within.votes vote party,
      fun either => either.elim (grown.voteParties vote party) (brought.2 vote party)⟩⟩

end Steps

/-! ## Catching up on a run -/

/-- A check that takes every signature for valid. -/
def sampleCheck : Nat → FreezeMessage Nat → Nat → Bool :=
  fun _ _ _ => true

/-- Having seen the proposals only, we catch up from the summary of a party that has seen the
whole sample run. -/
def sampleCatchUp : FreezeInput Nat Nat :=
  .processFreezeSummary (freezeSummary sampleNode.state) sampleCheck

theorem sample_records_exactly : FreezeReachable sampleInstance sampleProposed ∧
    (∀ value party,
      Listed (stepFreeze sampleInstance sampleProposed sampleCatchUp).state.proposals value party ↔
        Listed sampleProposed.state.proposals value party ∨
          sampleCatchUp.Proposes sampleInstance value party) ∧
    ∀ vote party,
      Listed (stepFreeze sampleInstance sampleProposed sampleCatchUp).state.votes vote party ↔
        Listed sampleProposed.state.votes vote party ∨
          sampleCatchUp.Votes sampleInstance vote party :=
  ⟨sampleProposed_reachable,
    freeze_step_records_exactly sampleInstance sampleProposed_reachable sampleCatchUp⟩

/-- The votes caught up on justify the decision `5`, and Freeze outputs it. -/
example : (stepFreeze sampleInstance sampleProposed sampleCatchUp).output =
    sampleProposed.output ++ [.DecisionJustified (some 5), .Frozen (some 5)] := by
  decide

end Concordium.Afgjort.Freeze
