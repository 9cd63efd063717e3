import Concordium.Afgjort.Freeze.Safety

/-!
Contract: what `processFreezeSummary` makes of a summary of justified messages: a party's own
summary gives it nothing (`processFreezeSummary_freezeSummary`), and of any summary, every
message signed and from a party of some weight is recorded.

Owns:
- `mem_summaryProposalsVotes`: an entry of a party's summary is one of its justified proposals
  made by some weight, with its justified votes; `doProposals_of_justified` and `doVotes_vs`: the
  two halves of the loop find nothing new in it;
- the loop rules for a goal that one pass secures (`Secures.forM`, `Secures.mapM`);
- `doProposals_secures` and `doVotes_secures`, and for the whole summary
  `processFreezeSummary_secures_proposal`, `processFreezeSummary_secures_vote` and
  `processFreezeSummary_secures_bot`: the signed messages of some weight of a summary are listed
  after it.

Does not own: the invariant and the rules (`Concordium.Afgjort.Freeze.Safety`).
-/

set_option autoImplicit false
set_option linter.dupNamespace false

namespace Concordium.Afgjort.Freeze

open Concordium.Afgjort.WMVBA (FreezeMessage)
open Emit

variable {val sig : Type} [LinearOrder val]

/-! ## A party's own summary -/

section OwnSummary

/-- An entry of a party's summary is a justified proposal made by some weight, with the justified
votes for its value. -/
theorem mem_summaryProposalsVotes {st : FreezeState val sig} {value : val}
    {props votes : AscMap Nat sig}
    (listed : (value, props, votes) ∈ (freezeSummary st).summaryProposalsVotes.toAscList) :
    ∃ parties, st.proposals.lookup value = some (true, parties) ∧ parties.weight ≠ 0 ∧
      props = parties.partyMap ∧ votes = freezeSummary.vs st value := by
  rw [AscMap.mem_iff_lookup] at listed
  simp only [freezeSummary, AscMap.lookup_mapMaybeWithKey, Option.bind_eq_some_iff] at listed
  obtain ⟨⟨flag, parties⟩, found, made⟩ := listed
  cases flag with
  | false => cases made
  | true =>
    simp only [freezeSummary.makePV] at made
    split at made
    · cases made
    · rename_i weighty
      cases made
      exact ⟨parties, found, weighty, rfl, rfl⟩

variable [DecidableEq sig] (inst : FreezeInstance)
  (checkSig : Nat → FreezeMessage val → sig → Bool)

/-- The proposals of a value justified for us, as our summary holds them, are none of them new. -/
theorem doProposals_of_justified {st : FreezeState val sig} {value : val}
    {parties : PartyMap sig} (found : st.proposals.lookup value = some (true, parties)) :
    (doProposals inst checkSig value parties.partyMap).run st = (CatchUpResult.empty, st, []) := by
  unfold doProposals
  dsimp only
  split
  · rfl
  · rw [run_get_bind, found]
    dsimp only
    rw [AscMap.toAscList_filterWithKey, AscMap.toAscList_difference_self, List.filter_nil,
      AscMap.null_differenceWithKey_self _ _ fun _ _ => by simp]
    rfl

/-- The votes our summary holds for a vote are none of them new. -/
theorem doVotes_vs (st : FreezeState val sig) (jval : WithBot val) :
    (doVotes inst checkSig jval (freezeSummary.vs st jval)).run st =
      (CatchUpResult.empty, st, []) := by
  unfold freezeSummary.vs
  split
  · rename_i parties found
    unfold doVotes
    dsimp only
    split
    · rfl
    · rw [run_get_bind, found]
      dsimp only
      rw [AscMap.toAscList_filterWithKey, AscMap.toAscList_difference_self, List.filter_nil,
        AscMap.null_differenceWithKey_self _ _ fun _ _ => by simp]
      rfl
  · rfl

/-- A party's own summary gives it nothing: processing it changes no state, outputs nothing, and
reports neither that the summary is behind nor that there is anything to catch up on. -/
theorem processFreezeSummary_freezeSummary (st : FreezeState val sig) :
    (processFreezeSummary inst checkSig (freezeSummary st)).run st =
      (CatchUpResult.empty, st, []) := by
  have bot : (doVotes inst checkSig ⊥ (freezeSummary st).summaryBotVotes).run st =
      (CatchUpResult.empty, st, []) :=
    doVotes_vs inst checkSig st ⊥
  unfold processFreezeSummary
  -- every pass of the loop over the values finds nothing new, and so do the votes for none
  rw [run_bind, run_mapM_of_steady _ (fun _ => CatchUpResult.empty) st _ ?steady]
  · rw [run_bind, bot, CatchUpResult.concat_map_empty]
    rfl
  · rintro ⟨value, props, votes⟩ listed
    obtain ⟨parties, found, -, rfl, rfl⟩ := mem_summaryProposalsVotes listed
    rw [run_bind, doProposals_of_justified inst checkSig found, run_bind,
      doVotes_vs inst checkSig st (value : WithBot val)]
    rfl

end OwnSummary

/-! ## Loops with a pass that secures a goal -/

section Loops

variable {inst : FreezeInstance}

/-- A goal that one pass of a loop secures, and that stays true as the state grows, holds after
the loop, when every pass keeps the invariant. -/
theorem Secures.forM {δ : Type} {goal : FreezeState val sig → Prop}
    {body : δ → Freeze val sig PUnit} (items : List δ)
    (keeps : ∀ item ∈ items, Keeps inst (fun _ => True) (body item)) {item : δ}
    (listed : item ∈ items) (secures : Secures inst (fun _ => True) goal (body item))
    (stable : Stable goal) : Secures inst (fun _ => True) goal (items.forM body) := by
  induction items with
  | nil => exact absurd listed List.not_mem_nil
  | cons head rest inductionHypothesis =>
    have keepsRest : ∀ other ∈ rest, Keeps inst (fun _ => True) (body other) :=
      fun other later => keeps other (List.mem_cons_of_mem head later)
    show Secures inst _ goal (body head >>= fun _ => rest.forM body)
    rcases List.mem_cons.mp listed with same | later
    · subst same
      exact secures.bind_left (fun _ => Keeps.forM rest keepsRest) stable
    · exact Secures.bind_right (keeps head List.mem_cons_self) fun _ =>
        inductionHypothesis keepsRest later

/-- The same for `mapM`. -/
theorem Secures.mapM {δ γ : Type} {goal : FreezeState val sig → Prop}
    {body : δ → Freeze val sig γ} (items : List δ)
    (keeps : ∀ item ∈ items, Keeps inst (fun _ => True) (body item)) {item : δ}
    (listed : item ∈ items) (secures : Secures inst (fun _ => True) goal (body item))
    (stable : Stable goal) : Secures inst (fun _ => True) goal (items.mapM body) := by
  -- `mapM` is its loop with an accumulator, which neither the invariant nor the goal reads
  suffices loop : ∀ (rest : List δ), (∀ other ∈ rest, Keeps inst (fun _ => True) (body other)) →
      ∀ done, Keeps inst (fun _ => True) (List.mapM.loop body rest done) ∧
        (item ∈ rest → Secures inst (fun _ => True) goal (List.mapM.loop body rest done)) from
    (loop items keeps []).2 listed
  intro rest
  induction rest with
  | nil => exact fun _ done => ⟨Keeps.pure done.reverse, fun listed => absurd listed List.not_mem_nil⟩
  | cons head rest inductionHypothesis =>
    intro keepsAll done
    have keepsRest : ∀ other ∈ rest, Keeps inst (fun _ => True) (body other) :=
      fun other later => keepsAll other (List.mem_cons_of_mem head later)
    have restKeeps := fun value => (inductionHypothesis keepsRest (value :: done)).1
    show Keeps inst _ (body head >>= fun value => List.mapM.loop body rest (value :: done)) ∧
      (item ∈ head :: rest →
        Secures inst _ goal (body head >>= fun value => List.mapM.loop body rest (value :: done)))
    refine ⟨((keepsAll head List.mem_cons_self).bind restKeeps stable_true).mono
      fun _ _ => ⟨trivial, trivial⟩, fun listed => ?_⟩
    rcases List.mem_cons.mp listed with same | later
    · subst same
      exact secures.bind_left restKeeps stable
    · exact Secures.bind_right (keepsAll head List.mem_cons_self) fun value =>
        (inductionHypothesis keepsRest (value :: done)).2 later

end Loops

/-! ## Every signed message of a summary is recorded -/

section Recorded

/-- A message of a summary that we have not seen, with a valid signature, is one the loop adds. -/
theorem mem_newMessages {messages : AscMap Nat sig} {party : Nat} {signature : sig}
    (signed : messages.lookup party = some signature) {check : Nat → sig → Bool}
    (valid : check party signature = true) {parties : PartyMap sig}
    (unseen : parties.member party = false) :
    (party, signature) ∈ ((messages.difference parties.partyMap).filterWithKey check).toAscList := by
  rw [AscMap.mem_iff_lookup, AscMap.lookup_filterWithKey, AscMap.difference,
    AscMap.lookup_filterWithKey, signed]
  rw [PartyMap.member, Option.isSome_eq_false_iff] at unseen
  simp [unseen, valid]

variable [DecidableEq sig] (inst : FreezeInstance)
  (checkSig : Nat → FreezeMessage val → sig → Bool)

/-- After the proposals half of the loop, a proposal of the summary with a valid signature is
recorded, if its party has some weight. -/
theorem doProposals_secures (value : val) (props : AscMap Nat sig) {party : Nat}
    {signature : sig} (signed : props.lookup party = some signature)
    (valid : checkSig party (.Proposal value) signature = true) :
    Secures inst (fun _ => True)
      (fun st => 0 < inst.partyWeight party → Listed st.proposals value party)
      (doProposals inst checkSig value props) := by
  have stable : Stable fun st : FreezeState val sig =>
      0 < inst.partyWeight party → Listed st.proposals value party :=
    Stable.imp _ (stable_listedProposal value party)
  have adds : ∀ entries : List (Nat × sig), (party, signature) ∈ entries →
      Secures inst (fun _ => True)
        (fun st => 0 < inst.partyWeight party → Listed st.proposals value party)
        (entries.forM fun entry => addProposal inst entry.1 value entry.2) :=
    fun entries listed => Secures.forM entries
      (fun entry _ => addProposal_keeps inst entry.1 value entry.2) listed
      (addProposal_secures inst party value signature) stable
  unfold doProposals
  dsimp only
  rw [if_neg (by rw [AscMap.null_eq_false_of_lookup signed]; decide)]
  refine Secures.bind_get fun read => ?_
  split
  · rename_i flag parties found
    cases seen : parties.member party with
    | true =>
      -- a party we have seen already stays listed
      refine (Keeps.secures ((Keeps.forM _ fun entry _ =>
        addProposal_keeps inst entry.1 value entry.2).bind (fun _ => Keeps.pure _) stable_true)
        stable).mono ?_ fun _ listed => listed
      rintro st ⟨rfl, -⟩
      exact ⟨⟨trivial, trivial⟩, fun _ => ⟨_, found, seen⟩⟩
    | false =>
      exact ((adds _ (mem_newMessages signed valid seen)).bind_left
        (fun _ => Keeps.pure _) stable).mono (fun _ _ => trivial) fun _ listed => listed
  · rename_i absent
    have listed : (party, signature) ∈ (props.filterWithKey fun party signature =>
        checkSig party (.Proposal value) signature).toAscList := by
      rw [AscMap.mem_iff_lookup, AscMap.lookup_filterWithKey, signed]
      simp [valid]
    exact ((adds _ listed).bind_left (fun _ => Keeps.pure _) stable).mono (fun _ _ => trivial)
      fun _ listed => listed

/-- After a half of the loop for the votes for `jval`, a vote of the summary with a valid
signature is recorded, if its party has some weight. -/
theorem doVotes_secures (jval : WithBot val) (vts : AscMap Nat sig) {party : Nat}
    {signature : sig} (signed : vts.lookup party = some signature)
    (valid : checkSig party (.Vote jval) signature = true) :
    Secures inst (fun _ => True)
      (fun st => 0 < inst.partyWeight party → Listed st.votes jval party)
      (doVotes inst checkSig jval vts) := by
  have stable : Stable fun st : FreezeState val sig =>
      0 < inst.partyWeight party → Listed st.votes jval party :=
    Stable.imp _ (stable_listedVote jval party)
  have adds : ∀ entries : List (Nat × sig), (party, signature) ∈ entries →
      Secures inst (fun _ => True)
        (fun st => 0 < inst.partyWeight party → Listed st.votes jval party)
        (entries.forM fun entry => addVote inst entry.1 jval entry.2) :=
    fun entries listed => Secures.forM entries
      (fun entry _ => addVote_keeps inst entry.1 jval entry.2) listed
      (addVote_secures inst party jval signature) stable
  unfold doVotes
  dsimp only
  rw [if_neg (by rw [AscMap.null_eq_false_of_lookup signed]; decide)]
  refine Secures.bind_get fun read => ?_
  split
  · rename_i flag parties found
    cases seen : parties.member party with
    | true =>
      refine (Keeps.secures ((Keeps.forM _ fun entry _ =>
        addVote_keeps inst entry.1 jval entry.2).bind (fun _ => Keeps.pure _) stable_true)
        stable).mono ?_ fun _ listed => listed
      rintro st ⟨rfl, -⟩
      exact ⟨⟨trivial, trivial⟩, fun _ => ⟨_, found, seen⟩⟩
    | false =>
      exact ((adds _ (mem_newMessages signed valid seen)).bind_left
        (fun _ => Keeps.pure _) stable).mono (fun _ _ => trivial) fun _ listed => listed
  · rename_i absent
    have listed : (party, signature) ∈ (vts.filterWithKey fun party signature =>
        checkSig party (.Vote jval) signature).toAscList := by
      rw [AscMap.mem_iff_lookup, AscMap.lookup_filterWithKey, signed]
      simp [valid]
    exact ((adds _ listed).bind_left (fun _ => Keeps.pure _) stable).mono (fun _ _ => trivial)
      fun _ listed => listed

/-- The tail of `processFreezeSummary`, after the loop over the values. -/
theorem summaryTail_keeps (summary : FreezeSummary val sig) (r1 : List CatchUpResult) :
    Keeps inst (fun _ => True) (do
      let r2 ← doVotes inst checkSig ⊥ summary.summaryBotVotes
      pure ((CatchUpResult.concat r1).append r2) : Freeze val sig CatchUpResult) :=
  ((doVotes_keeps inst checkSig ⊥ summary.summaryBotVotes).bind (fun _ => Keeps.pure _)
    stable_true).mono fun _ _ => ⟨trivial, trivial⟩

/-- A proposal of the summary with a valid signature is recorded after it, if its party has
some weight. -/
theorem processFreezeSummary_secures_proposal (summary : FreezeSummary val sig) {value : val}
    {props votes : AscMap Nat sig}
    (found : summary.summaryProposalsVotes.lookup value = some (props, votes)) {party : Nat}
    {signature : sig} (signed : props.lookup party = some signature)
    (valid : checkSig party (.Proposal value) signature = true) :
    Secures inst (fun _ => True)
      (fun st => 0 < inst.partyWeight party → Listed st.proposals value party)
      (processFreezeSummary inst checkSig summary) := by
  have stable : Stable fun st : FreezeState val sig =>
      0 < inst.partyWeight party → Listed st.proposals value party :=
    Stable.imp _ (stable_listedProposal value party)
  have pass : Secures inst (fun _ => True)
      (fun st => 0 < inst.partyWeight party → Listed st.proposals value party) (do
        let r1props ← doProposals inst checkSig value props
        let r1votes ← doVotes inst checkSig (value : WithBot val) votes
        pure (r1props.append r1votes) : Freeze val sig CatchUpResult) :=
    (doProposals_secures inst checkSig value props signed valid).bind_left
    (fun _ => ((doVotes_keeps inst checkSig (value : WithBot val) votes).bind
      (fun _ => Keeps.pure _) stable_true).mono fun _ _ => ⟨trivial, trivial⟩) stable
  unfold processFreezeSummary
  exact (Secures.mapM _ (fun entry _ => summaryPass_keeps inst checkSig entry)
    ((AscMap.mem_iff_lookup _ _ _).mpr found) pass stable).bind_left
    (summaryTail_keeps inst checkSig summary) stable

/-- A vote of the summary for a value, with a valid signature, is recorded after it, if its
party has some weight. -/
theorem processFreezeSummary_secures_vote (summary : FreezeSummary val sig) {value : val}
    {props votes : AscMap Nat sig}
    (found : summary.summaryProposalsVotes.lookup value = some (props, votes)) {party : Nat}
    {signature : sig} (signed : votes.lookup party = some signature)
    (valid : checkSig party (.Vote (value : WithBot val)) signature = true) :
    Secures inst (fun _ => True)
      (fun st => 0 < inst.partyWeight party → Listed st.votes (value : WithBot val) party)
      (processFreezeSummary inst checkSig summary) := by
  have stable : Stable fun st : FreezeState val sig =>
      0 < inst.partyWeight party → Listed st.votes (value : WithBot val) party :=
    Stable.imp _ (stable_listedVote _ party)
  have pass : Secures inst (fun _ => True)
      (fun st => 0 < inst.partyWeight party → Listed st.votes (value : WithBot val) party) (do
        let r1props ← doProposals inst checkSig value props
        let r1votes ← doVotes inst checkSig (value : WithBot val) votes
        pure (r1props.append r1votes) : Freeze val sig CatchUpResult) :=
    Secures.bind_right (doProposals_keeps inst checkSig value props) fun _ =>
    (doVotes_secures inst checkSig (value : WithBot val) votes signed valid).bind_left
      (fun _ => Keeps.pure _) stable
  unfold processFreezeSummary
  exact (Secures.mapM _ (fun entry _ => summaryPass_keeps inst checkSig entry)
    ((AscMap.mem_iff_lookup _ _ _).mpr found) pass stable).bind_left
    (summaryTail_keeps inst checkSig summary) stable

/-- A vote of the summary for none, with a valid signature, is recorded after it, if its party
has some weight. -/
theorem processFreezeSummary_secures_bot (summary : FreezeSummary val sig) {party : Nat}
    {signature : sig} (signed : summary.summaryBotVotes.lookup party = some signature)
    (valid : checkSig party (.Vote (⊥ : WithBot val)) signature = true) :
    Secures inst (fun _ => True)
      (fun st => 0 < inst.partyWeight party → Listed st.votes ⊥ party)
      (processFreezeSummary inst checkSig summary) := by
  have stable : Stable fun st : FreezeState val sig =>
      0 < inst.partyWeight party → Listed st.votes ⊥ party :=
    Stable.imp _ (stable_listedVote ⊥ party)
  unfold processFreezeSummary
  exact Secures.bind_right (Keeps.mapM _ fun entry _ => summaryPass_keeps inst checkSig entry)
    fun _ => (doVotes_secures inst checkSig ⊥ summary.summaryBotVotes signed valid).bind_left
      (fun _ => Keeps.pure _) stable

end Recorded

end Concordium.Afgjort.Freeze
