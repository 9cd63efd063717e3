import Concordium.Afgjort.Freeze.Invariant

/-!
Contract: every handler of a Freeze instance keeps its invariant (`Holds`), and so does every run
of its operations, in whatever order they come: in every node that `FreezeReachable` reaches,
- `Frozen` is output at most once, exactly when the instance is completed, for a justified
  decision: one whose justified votes come from parties of weight above the corrupt weight, once
  the justified voters weigh at least `totalWeight - corruptWeight`;
- every justified vote is Jvote-justified, and every justified decision Jdec-justified;
- every justified decision is announced, once, and only those;
- the justified proposers and voters, the count of justified proposals and every weight are what
  the proposals and votes recorded make them;
- we vote for a value only while it has a justified proposal from parties of weight at least
  `totalWeight - corruptWeight`.

Owns:
- `Keeps pre m`: from a state where `Holds` and `pre` hold, `m` leaves one where `Holds` holds,
  which has grown; `Stable`, a condition that growing keeps; the rules `Keeps.pure`,
  `Keeps.mono`, `Keeps.bind`, `Keeps.bind_get`, `Keeps.ite`, `Keeps.ite_bind`, `Keeps.forM` and
  `Keeps.mapM`;
- one `Keeps` lemma for each handler, with the precondition of the justification it makes
  (`justifyDecision_keeps`, `doFinish_keeps`, `justifyVote_keeps`), and the summary's loops;
- `Secures pre goal m`: as `Keeps`, and `goal` holds after `m`, with the rules `Secures.keeps`,
  `Secures.mono`, `Keeps.secures`, `Secures.bind_left`, `Secures.bind_right` and
  `Secures.bind_get`; `addProposal_secures` and `addVote_secures`: the party is then listed;
- `initial_holds`, `stepFreeze_advances` and `FreezeReachable.holds`; `FreezeReachable.grows`:
  along a run the state only grows; and what they give, on every run, and on a sample run.

Does not own: the invariant and the changes (`Concordium.Afgjort.Freeze.Invariant`).
-/

set_option autoImplicit false
set_option linter.dupNamespace false

namespace Concordium.Afgjort.Freeze

open Concordium.Afgjort.WMVBA (FreezeMessage)
open Emit

variable {val sig : Type} [LinearOrder val]

/-! ## The rules -/

section Rules

variable (inst : FreezeInstance)

/-- From a state where `Holds` and `pre` hold, grown from `start`, the handler leaves one where
`Holds` holds, grown from `start`. -/
def Keeps {α : Type} (pre : FreezeState val sig → Prop) (m : Freeze val sig α) : Prop :=
  ∀ start, Hoare (fun st log => Holds inst st log ∧ Grows start st ∧ pre st) m
    fun _ st log => Holds inst st log ∧ Grows start st

/-- A condition that stays true as the state grows. -/
def Stable (pre : FreezeState val sig → Prop) : Prop :=
  ∀ {st st'}, Grows st st' → pre st → pre st'

/-- As `Keeps`, and the handler leaves a state where `goal` holds too. -/
def Secures {α : Type} (pre goal : FreezeState val sig → Prop) (m : Freeze val sig α) : Prop :=
  ∀ start, Hoare (fun st log => Holds inst st log ∧ Grows start st ∧ pre st) m
    fun _ st log => Holds inst st log ∧ Grows start st ∧ goal st

variable {inst}

theorem Keeps.pure {α : Type} {pre : FreezeState val sig → Prop} (value : α) :
    Keeps inst pre (Pure.pure value : Freeze val sig α) := fun _ =>
  (Hoare.pure value).mono (fun _ _ holds => ⟨holds.1, holds.2.1⟩) fun _ _ _ holds => holds

theorem Keeps.mono {α : Type} {pre pre' : FreezeState val sig → Prop} {m : Freeze val sig α}
    (keeps : Keeps inst pre m) (weaker : ∀ st, pre' st → pre st) : Keeps inst pre' m :=
  fun start => (keeps start).mono (fun st _ holds => ⟨holds.1, holds.2.1, weaker st holds.2.2⟩)
    fun _ _ _ holds => holds

/-- The rule of sequence: what the rest needs holds before the first part, and stays so. -/
theorem Keeps.bind {α β : Type} {pre pre' : FreezeState val sig → Prop} {m : Freeze val sig α}
    {k : α → Freeze val sig β} (first : Keeps inst pre m)
    (rest : ∀ value, Keeps inst pre' (k value)) (stable : Stable pre') :
    Keeps inst (fun st => pre st ∧ pre' st) (m >>= k) := by
  intro start st log ⟨holds, grown, before, later⟩
  obtain ⟨holds', grown'⟩ := first st st log ⟨holds, Grows.refl st, before⟩
  have reached := rest (m.run st).1 start _ _ ⟨holds', grown.trans grown', stable grown' later⟩
  rw [List.append_assoc] at reached
  exact reached

theorem Keeps.bind_get {α : Type} {pre : FreezeState val sig → Prop}
    {k : FreezeState val sig → Freeze val sig α}
    (rest : ∀ read, Keeps inst (fun st => st = read ∧ pre st) (k read)) :
    Keeps inst pre (MonadState.get >>= k) := by
  intro start st log ⟨holds, grown, before⟩
  exact rest st start st log ⟨holds, grown, rfl, before⟩

theorem Keeps.ite {c : Prop} [Decidable c] {pre : FreezeState val sig → Prop}
    {m : Freeze val sig Unit} (yes : c → Keeps inst pre m) :
    Keeps inst (fun st => c → pre st) (if c then m else Pure.pure ()) := by
  by_cases holds : c
  · rw [if_pos holds]
    exact (yes holds).mono fun _ later => later holds
  · rw [if_neg holds]
    exact Keeps.pure ()

/-- An `if` of a handler with more to do after it, as `do` writes it: the rest is a join point. -/
theorem Keeps.ite_bind {c : Prop} [Decidable c] {pre pre' : FreezeState val sig → Prop}
    {m : Freeze val sig Unit} {k : Unit → Freeze val sig Unit} (yes : c → Keeps inst pre m)
    (rest : Keeps inst pre' (k ())) (stable : Stable pre') :
    Keeps inst (fun st => (c → pre st) ∧ pre' st) (if c then m >>= k else k ()) := by
  by_cases holds : c
  · rw [if_pos holds]
    exact ((yes holds).bind (fun _ => rest) stable).mono fun _ both => ⟨both.1 holds, both.2⟩
  · rw [if_neg holds]
    exact rest.mono fun _ both => both.2

theorem Keeps.forM {δ : Type} (items : List δ) {body : δ → Freeze val sig PUnit}
    (keeps : ∀ item ∈ items, Keeps inst (fun _ => True) (body item)) :
    Keeps inst (fun _ => True) (items.forM body) := fun start =>
  (Hoare.forM (fun st log => Holds inst st log ∧ Grows start st) body items
    fun item listed => (keeps item listed start).mono (fun _ _ holds => ⟨holds.1, holds.2, trivial⟩)
      fun _ _ _ holds => holds).mono (fun _ _ holds => ⟨holds.1, holds.2.1⟩)
    fun _ _ _ holds => holds

theorem Keeps.mapM {δ γ : Type} (items : List δ) {body : δ → Freeze val sig γ}
    (keeps : ∀ item ∈ items, Keeps inst (fun _ => True) (body item)) :
    Keeps inst (fun _ => True) (items.mapM body) := fun start =>
  (Hoare.mapM (fun st log => Holds inst st log ∧ Grows start st) body items
    fun item listed => (keeps item listed start).mono (fun _ _ holds => ⟨holds.1, holds.2, trivial⟩)
      fun _ _ _ holds => holds).mono (fun _ _ holds => ⟨holds.1, holds.2.1⟩)
    fun _ _ _ holds => holds

theorem Secures.keeps {α : Type} {pre goal : FreezeState val sig → Prop} {m : Freeze val sig α}
    (secures : Secures inst pre goal m) : Keeps inst pre m :=
  fun start => (secures start).mono (fun _ _ holds => holds) fun _ _ _ holds => ⟨holds.1, holds.2.1⟩

theorem Secures.mono {α : Type} {pre pre' goal goal' : FreezeState val sig → Prop}
    {m : Freeze val sig α} (secures : Secures inst pre goal m) (weaker : ∀ st, pre' st → pre st)
    (stronger : ∀ st, goal st → goal' st) : Secures inst pre' goal' m :=
  fun start => (secures start).mono (fun st _ holds => ⟨holds.1, holds.2.1, weaker st holds.2.2⟩)
    fun _ st _ holds => ⟨holds.1, holds.2.1, stronger st holds.2.2⟩

/-- What holds before a handler that keeps the invariant and stays true as the state grows holds
after it. -/
theorem Keeps.secures {α : Type} {pre goal : FreezeState val sig → Prop} {m : Freeze val sig α}
    (keeps : Keeps inst pre m) (stable : Stable goal) :
    Secures inst (fun st => pre st ∧ goal st) goal m := by
  intro start st log ⟨holds, grown, before, already⟩
  obtain ⟨holds', grown'⟩ := keeps st st log ⟨holds, Grows.refl st, before⟩
  exact ⟨holds', grown.trans grown', stable grown' already⟩

/-- What the first part secures and the rest keeps stays true. -/
theorem Secures.bind_left {α β : Type} {pre goal : FreezeState val sig → Prop}
    {m : Freeze val sig α} {k : α → Freeze val sig β} (first : Secures inst pre goal m)
    (rest : ∀ value, Keeps inst (fun _ => True) (k value)) (stable : Stable goal) :
    Secures inst pre goal (m >>= k) := fun start =>
  Hoare.bind (first start) fun value => ((rest value).secures stable start).mono
    (fun _ _ holds => ⟨holds.1, holds.2.1, trivial, holds.2.2⟩) fun _ _ _ holds => holds

theorem Secures.bind_right {α β : Type} {pre goal : FreezeState val sig → Prop}
    {m : Freeze val sig α} {k : α → Freeze val sig β} (first : Keeps inst pre m)
    (rest : ∀ value, Secures inst (fun _ => True) goal (k value)) :
    Secures inst pre goal (m >>= k) := fun start =>
  Hoare.bind (first start) fun value => (rest value start).mono
    (fun _ _ holds => ⟨holds.1, holds.2, trivial⟩) fun _ _ _ holds => holds

theorem Secures.bind_get {α : Type} {pre goal : FreezeState val sig → Prop}
    {k : FreezeState val sig → Freeze val sig α}
    (rest : ∀ read, Secures inst (fun st => st = read ∧ pre st) goal (k read)) :
    Secures inst pre goal (MonadState.get >>= k) := by
  intro start st log ⟨holds, grown, before⟩
  exact rest st start st log ⟨holds, grown, rfl, before⟩

theorem stable_true : Stable fun _ : FreezeState val sig => True :=
  fun _ _ => trivial

theorem Stable.imp {pre : FreezeState val sig → Prop} (c : Prop) (stable : Stable pre) :
    Stable fun st => c → pre st :=
  fun grown later holds => stable grown (later holds)

theorem Stable.and {pre pre' : FreezeState val sig → Prop} (stable : Stable pre)
    (stable' : Stable pre') : Stable fun st => pre st ∧ pre' st :=
  fun grown both => ⟨stable grown both.1, stable' grown both.2⟩

theorem stable_voteJustifiable (inst : FreezeInstance) (vote : WithBot val) :
    Stable fun st : FreezeState val sig => VoteJustifiable inst st.proposals vote :=
  fun grown justifiable => justifiable.kept inst grown.proposals

theorem stable_votersWeight (least : Nat) :
    Stable fun st : FreezeState val sig => least ≤ st.justifiedVoters.weight :=
  fun grown enough => enough.trans grown.voters

theorem stable_listedProposal (value : val) (party : Nat) :
    Stable fun st : FreezeState val sig => Listed st.proposals value party :=
  fun grown listed => grown.proposalParties value party listed

theorem stable_listedVote (vote : WithBot val) (party : Nat) :
    Stable fun st : FreezeState val sig => Listed st.votes vote party :=
  fun grown listed => grown.voteParties vote party listed

end Rules

/-! ## What the handlers read -/

section Reads

variable (inst : FreezeInstance)

omit [LinearOrder val] in
theorem mem_of_determineVote {entries : List (val × Bool × PartyMap sig)} {value : val}
    (chosen : determineVote inst entries = some value) :
    ∃ parties, (value, true, parties) ∈ entries ∧
      inst.totalWeight - inst.corruptWeight ≤ parties.weight := by
  induction entries with
  | nil => cases chosen
  | cons entry rest inductionHypothesis =>
    obtain ⟨other, flag, parties⟩ := entry
    cases flag with
    | false =>
      obtain ⟨found, listed, enough⟩ := inductionHypothesis chosen
      exact ⟨found, List.mem_cons_of_mem _ listed, enough⟩
    | true =>
      rw [determineVote] at chosen
      split at chosen
      · rename_i enough
        cases chosen
        exact ⟨parties, List.mem_cons_self, enough⟩
      · obtain ⟨found, listed, enough⟩ := inductionHypothesis chosen
        exact ⟨found, List.mem_cons_of_mem _ listed, enough⟩

/-- The vote `doVote` sends for a value has a justified proposal from parties of weight
`totalWeight - corruptWeight`. -/
theorem determineVote_justified {proposals : AscMap val (Bool × PartyMap sig)} {value : val}
    (chosen : determineVote inst proposals.toAscList = some value) :
    JustifiedAtLeast proposals value (inst.totalWeight - inst.corruptWeight) := by
  obtain ⟨parties, listed, enough⟩ := mem_of_determineVote inst chosen
  exact ⟨parties, (AscMap.mem_iff_lookup _ _ _).mp listed, enough⟩

/-- Two counted justified proposals and two justified proposers justify a vote for none. -/
theorem voteJustifiable_bot {st : FreezeState val sig} (tallies : Tallies inst st)
    (two : st.distinctJustifiedProposals ≥ 2 ∧ st.justifiedProposers.size ≥ 2) :
    VoteJustifiable inst st.proposals ⊥ := by
  have counted : 2 ≤ justifiedCount st.proposals := tallies.distinct ▸ two.1
  obtain ⟨value, value', differs, justified, justified'⟩ :=
    exists_ne_of_two_le_justifiedCount counted
  obtain ⟨party, party', distinct, listed, listed'⟩ := PartySet.exists_ne_of_two_le_size two.2
  exact ⟨⟨value, value', differs, justified, justified'⟩, party, party', distinct,
    (tallies.proposals.justifiedParties party).mp listed,
    (tallies.proposals.justifiedParties party').mp listed'⟩

theorem decided_of_mem_keys {st : FreezeState val sig} {decision : WithBot val}
    (listed : decision ∈ st.justifiedDecisions.keys) : Decided st decision := by
  obtain ⟨_, found⟩ := (AscMap.mem_keys_iff _ _).mp listed
  rw [Decided, found]
  rfl

end Reads

/-! ## The handlers -/

section Handlers

variable (inst : FreezeInstance)

theorem justifyDecision_keeps (decision : WithBot val) :
    Keeps inst (fun st => JustifiedAtLeast st.votes decision (inst.corruptWeight + 1))
      (justifyDecision decision : Freeze val sig Unit) := by
  intro start st log ⟨holds, grown, backed⟩
  simp only [justifyDecision, run_get_bind]
  split
  · rw [run_pure, List.append_nil]
    exact ⟨holds, grown⟩
  · rename_i fresh
    rw [run_modify_bind, run_tell]
    have advanced := holds.decide fresh backed
    exact ⟨advanced.holds, grown.trans advanced.grows⟩

theorem doFinish_keeps :
    Keeps inst (fun st => inst.totalWeight - inst.corruptWeight ≤ st.justifiedVoters.weight)
      (doFinish : Freeze val sig Unit) := by
  intro start st log ⟨holds, grown, enough⟩
  simp only [doFinish, run_get_bind, run_modify_bind]
  split
  · -- completed before: the state stays as it was
    rename_i done
    have same : { st with completed := true } = st := by rw [← done]
    rw [run_pure, List.append_nil, same]
    exact ⟨holds, grown⟩
  · rename_i pending
    rw [run_get_bind]
    split
    · -- no justified decision: too much corruption, and the instance stays pending
      have same : { st with completed := false } = st := by
        rw [← Bool.eq_false_iff.mpr pending]
      rw [run_modify, List.append_nil, same]
      exact ⟨holds, grown⟩
    · rename_i res rest greatest
      rw [run_tell]
      have listed : res ∈ st.justifiedDecisions.keys :=
        List.mem_reverse.mp (greatest ▸ List.mem_cons_self)
      have advanced := holds.finish (Bool.eq_false_iff.mpr pending) enough
        (decided_of_mem_keys listed)
      exact ⟨advanced.holds, grown.trans advanced.grows⟩

theorem doVote_keeps : Keeps inst (fun _ => True) (doVote inst : Freeze val sig Unit) := by
  rintro start st log ⟨holds, grown, -⟩
  simp only [doVote, run_get_bind]
  split
  · rw [run_pure, List.append_nil]
    exact ⟨holds, grown⟩
  · rw [run_get_bind, run_tell]
    refine ⟨holds.send _ fun value voted => ?_, grown⟩
    rw [FreezeMessage.Vote.injEq] at voted
    exact determineVote_justified inst voted

theorem propose_keeps (candidate : val) :
    Keeps inst (fun _ => True) (propose inst candidate : Freeze val sig Unit) := by
  rintro start st log ⟨holds, grown, -⟩
  simp only [propose, run_get_bind]
  split
  · rw [run_pure, List.append_nil]
    exact ⟨holds, grown⟩
  · rw [run_tell]
    exact ⟨holds.send _ (fun _ proposed => by cases proposed), grown⟩

/-- The calls at the end of `justifyVote` and `addVote`, once the vote is justified: a decision
justified, and the protocol finished. -/
theorem justifyDecision_doFinish_keeps (vote : WithBot val) (heavy : Prop) [Decidable heavy]
    (enough : Prop) [Decidable enough] :
    Keeps inst (fun st => (heavy → JustifiedAtLeast st.votes vote (inst.corruptWeight + 1)) ∧
        (enough → inst.totalWeight - inst.corruptWeight ≤ st.justifiedVoters.weight))
      (if heavy then justifyDecision vote >>= (fun _ => if enough then doFinish else Pure.pure ())
        else if enough then (doFinish : Freeze val sig Unit) else Pure.pure ()) :=
  Keeps.ite_bind (fun _ => justifyDecision_keeps inst vote) (Keeps.ite fun _ => doFinish_keeps inst)
    (Stable.imp _ (stable_votersWeight _))

theorem justifyVote_keeps (vote : WithBot val) :
    Keeps inst (fun st => VoteJustifiable inst st.proposals vote)
      (justifyVote inst vote : Freeze val sig Unit) := by
  intro start st log ⟨holds, grown, justifiable⟩
  simp only [justifyVote, run_get_bind]
  split
  · rename_i absent
    rw [run_setVote, List.append_nil]
    have advanced := holds.justifyEmptyVote absent justifiable
    exact ⟨advanced.holds, grown.trans advanced.grows⟩
  · rename_i parties found
    rw [run_setVote_bind, run_modifyJustifiedVoters_bind]
    have advanced := holds.justifyVote found justifiable
    exact justifyDecision_doFinish_keeps inst vote _ _ start _ log
      ⟨advanced.holds, grown.trans advanced.grows,
        fun heavy => ⟨parties, AscMap.lookup_insert_self _ _ _, heavy⟩, fun enough => enough⟩
  · rw [run_pure, List.append_nil]
    exact ⟨holds, grown⟩

/-- `addVote` keeps the invariant, and a party of some weight is then a party of its vote. -/
theorem addVote_secures (party : Nat) (vote : WithBot val) (signature : sig) :
    Secures inst (fun _ => True) (fun st => 0 < inst.partyWeight party → Listed st.votes vote party)
      (addVote inst party vote signature) := by
  rintro start st log ⟨holds, grown, -⟩
  unfold addVote
  split
  · rename_i positive
    simp only [run_get_bind]
    split
    · rename_i absent
      rw [run_setVote, List.append_nil]
      have advanced := holds.setUnjustifiedVote (fun parties => by rw [absent]; simp)
        (Recorded.singleton positive signature) (extends_insert_of_lookup_eq_none absent _)
      exact ⟨advanced.holds, grown.trans advanced.grows,
        fun _ => listed_insert_self (by simp [PartyMap.member_singleton])⟩
    · rename_i parties found
      rw [run_setVote, List.append_nil]
      have advanced := holds.setUnjustifiedVote (fun others => by rw [found]; simp)
        ((holds.tallies.votes.recorded vote _ found).insert inst.weightsFit positive signature)
        (extends_insert_add found false _ _ _)
      exact ⟨advanced.holds, grown.trans advanced.grows,
        fun _ => listed_insert_self (by simp [PartyMap.member_insert])⟩
    · rename_i parties found
      rw [run_setVote_bind, run_modifyJustifiedVoters_bind]
      have advanced := holds.addJustifiedVote found positive signature
      have listed : Listed (st.votes.insert vote
          (true, parties.insert party (inst.partyWeight party) signature)) vote party :=
        listed_insert_self (by simp [PartyMap.member_insert])
      -- the rest is run from the changed state, where the party is listed
      exact (justifyDecision_doFinish_keeps inst vote _ _).secures
        (Stable.imp _ (stable_listedVote vote party)) start _ log
        ⟨advanced.holds, grown.trans advanced.grows,
          ⟨fun heavy => ⟨_, AscMap.lookup_insert_self _ _ _, heavy⟩, fun enough => enough⟩,
          fun _ => listed⟩
  · rename_i weightless
    rw [run_pure, List.append_nil]
    exact ⟨holds, grown, fun positive => absurd positive weightless⟩

theorem addVote_keeps (party : Nat) (vote : WithBot val) (signature : sig) :
    Keeps inst (fun _ => True) (addVote inst party vote signature) :=
  (addVote_secures inst party vote signature).keeps

theorem justifyCandidate_keeps (value : val) :
    Keeps inst (fun _ => True) (justifyCandidate inst value : Freeze val sig Unit) := by
  rintro start st log ⟨holds, grown, -⟩
  simp only [justifyCandidate, run_get_bind]
  split
  · rename_i absent
    rw [run_setProposal, List.append_nil]
    have advanced := holds.justifyEmptyProposal (fun parties => by rw [absent]; simp)
      Recorded.empty rfl (extends_insert_of_lookup_eq_none absent _)
    exact ⟨advanced.holds, grown.trans advanced.grows⟩
  · rename_i parties found
    rw [run_setProposal_bind]
    split
    · rename_i positive
      rw [run_modifyJustifiedProposers_bind, run_countJustifiedProposal_bind]
      have advanced := holds.justifyProposal found positive
      exact (Keeps.ite_bind (fun _ => justifyVote_keeps inst (value : WithBot val))
        (Keeps.ite_bind (fun _ => justifyVote_keeps inst ⊥) (Keeps.ite fun _ => doVote_keeps inst)
          (Stable.imp _ stable_true))
        (Stable.and (Stable.imp _ (stable_voteJustifiable inst ⊥)) (Stable.imp _ stable_true)))
        start _ log ⟨advanced.holds, grown.trans advanced.grows,
          fun enough => ⟨parties, AscMap.lookup_insert_self _ _ _, enough⟩,
          fun two => voteJustifiable_bot inst advanced.holds.tallies two, fun _ => trivial⟩
    · -- a proposal of no weight is justified, with no parties
      rename_i weightless
      rw [run_pure, List.append_nil]
      have advanced := holds.justifyEmptyProposal (fun others => by rw [found]; simp)
        (show Recorded inst.partyWeight parties from holds.tallies.proposals.recorded value _ found)
        (by omega) (extends_insert_same found true)
      exact ⟨advanced.holds, grown.trans advanced.grows⟩
  · rw [run_pure, List.append_nil]
    exact ⟨holds, grown⟩

/-- `addProposal` keeps the invariant, and a party of some weight is then a party of its
proposal. -/
theorem addProposal_secures (party : Nat) (value : val) (signature : sig) :
    Secures inst (fun _ => True)
      (fun st => 0 < inst.partyWeight party → Listed st.proposals value party)
      (addProposal inst party value signature) := by
  rintro start st log ⟨holds, grown, -⟩
  unfold addProposal
  split
  · rename_i positive
    simp only [run_get_bind]
    split
    · rename_i absent
      rw [run_setProposal, List.append_nil]
      have advanced := holds.setUnjustifiedProposal (fun parties => by rw [absent]; simp)
        (Recorded.singleton positive signature) (extends_insert_of_lookup_eq_none absent _)
      exact ⟨advanced.holds, grown.trans advanced.grows,
        fun _ => listed_insert_self (by simp [PartyMap.member_singleton])⟩
    · rename_i isCandidate parties found
      split
      · rename_i member
        rw [run_pure, List.append_nil]
        exact ⟨holds, grown, fun _ => ⟨_, found, member⟩⟩
      · rename_i fresh
        rw [run_setProposal_bind]
        have listed : Listed (st.proposals.insert value
            (isCandidate, parties.insert party (inst.partyWeight party) signature)) value party :=
          listed_insert_self (by simp [PartyMap.member_insert])
        cases isCandidate with
        | false =>
          rw [if_neg Bool.false_ne_true, run_pure, List.append_nil]
          have advanced := holds.setUnjustifiedProposal (fun others => by rw [found]; simp)
            ((holds.tallies.proposals.recorded value _ found).insert inst.weightsFit positive
              signature)
            (extends_insert_add found false _ _ _)
          exact ⟨advanced.holds, grown.trans advanced.grows, fun _ => listed⟩
        | true =>
          rw [if_pos rfl, run_modifyJustifiedProposers_bind, run_currJProps_bind]
          have advanced := holds.addJustifiedProposal found positive
            (Bool.eq_false_iff.mpr fresh) signature _ rfl
          -- the rest is run from the changed state, where the party is listed
          exact (Keeps.secures (Keeps.ite_bind (fun _ => justifyVote_keeps inst ⊥)
            (Keeps.ite_bind (fun _ => justifyVote_keeps inst (value : WithBot val))
              (Keeps.ite fun _ => doVote_keeps inst) (Stable.imp _ stable_true))
            (Stable.and (Stable.imp _ (stable_voteJustifiable inst (value : WithBot val)))
              (Stable.imp _ stable_true)))
            (Stable.imp _ (stable_listedProposal value party))) start _ log
            ⟨advanced.holds, grown.trans advanced.grows,
              ⟨fun two => voteJustifiable_bot inst advanced.holds.tallies two,
                fun enough => ⟨_, AscMap.lookup_insert_self _ _ _, enough⟩, fun _ => trivial⟩,
              fun _ => listed⟩
  · rename_i weightless
    rw [run_pure, List.append_nil]
    exact ⟨holds, grown, fun positive => absurd positive weightless⟩

theorem addProposal_keeps (party : Nat) (value : val) (signature : sig) :
    Keeps inst (fun _ => True) (addProposal inst party value signature) :=
  (addProposal_secures inst party value signature).keeps

theorem receiveFreezeMessage_keeps (party : Nat) (message : FreezeMessage val) (signature : sig) :
    Keeps inst (fun _ => True) (receiveFreezeMessage inst party message signature) := by
  cases message with
  | Proposal value => exact addProposal_keeps inst party value signature
  | Vote vote => exact addVote_keeps inst party vote signature

end Handlers

/-! ## Summaries -/

section Summary

variable [DecidableEq sig] (inst : FreezeInstance)
  (checkSig : Nat → FreezeMessage val → sig → Bool)

theorem doProposals_keeps (value : val) (props : AscMap Nat sig) :
    Keeps inst (fun _ => True) (doProposals inst checkSig value props) := by
  unfold doProposals
  dsimp only
  split
  · exact Keeps.pure _
  · refine Keeps.bind_get fun read => ?_
    split
    all_goals
      exact ((Keeps.forM _ fun entry _ => addProposal_keeps inst entry.1 value entry.2).bind
        (fun _ => Keeps.pure _) stable_true).mono fun _ _ => ⟨trivial, trivial⟩

theorem doVotes_keeps (jval : WithBot val) (vts : AscMap Nat sig) :
    Keeps inst (fun _ => True) (doVotes inst checkSig jval vts) := by
  unfold doVotes
  dsimp only
  split
  · exact Keeps.pure _
  · refine Keeps.bind_get fun read => ?_
    split
    all_goals
      exact ((Keeps.forM _ fun entry _ => addVote_keeps inst entry.1 jval entry.2).bind
        (fun _ => Keeps.pure _) stable_true).mono fun _ _ => ⟨trivial, trivial⟩

/-- One pass of the loop of `processFreezeSummary`, over the proposals and votes for one value. -/
theorem summaryPass_keeps (entry : val × AscMap Nat sig × AscMap Nat sig) :
    Keeps inst (fun _ => True) (do
      let r1props ← doProposals inst checkSig entry.1 entry.2.1
      let r1votes ← doVotes inst checkSig (entry.1 : WithBot val) entry.2.2
      pure (r1props.append r1votes) : Freeze val sig CatchUpResult) :=
  ((doProposals_keeps inst checkSig entry.1 entry.2.1).bind
    (fun _ => (doVotes_keeps inst checkSig _ entry.2.2).bind (fun _ => Keeps.pure _) stable_true)
    (Stable.and stable_true stable_true)).mono fun _ _ => ⟨trivial, trivial, trivial⟩

theorem processFreezeSummary_keeps (summary : FreezeSummary val sig) :
    Keeps inst (fun _ => True) (processFreezeSummary inst checkSig summary) := by
  unfold processFreezeSummary
  -- the loop over the values of the summary, then the votes for none
  exact (Keeps.bind (Keeps.mapM _ fun entry _ => summaryPass_keeps inst checkSig entry)
    (fun _ => (doVotes_keeps inst checkSig ⊥ summary.summaryBotVotes).bind
      (fun _ => Keeps.pure _) stable_true) (Stable.and stable_true stable_true)).mono
    fun _ _ => ⟨trivial, trivial, trivial⟩

end Summary

/-! ## Runs -/

section Runs

variable (inst : FreezeInstance)

theorem initial_holds : Holds inst (initialFreezeState : FreezeState val sig) [] where
  tallies := ⟨Tallied.empty, rfl, Tallied.empty⟩
  justified := ⟨fun _ _ found => (by cases found), fun _ decided => (by cases decided)⟩
  output := {
    announced := fun _ => iff_of_false List.not_mem_nil fun decided => by cases decided
    announcedOnce := List.nodup_nil
    completed := iff_of_false Bool.false_ne_true fun ⟨_, frozen⟩ => List.not_mem_nil frozen
    frozenOnce := Nat.zero_le 1
    frozenDecided := fun _ frozen => absurd frozen List.not_mem_nil
    finished := fun done => absurd done Bool.false_ne_true
    voted := fun _ sent => absurd sent List.not_mem_nil }

variable [DecidableEq sig]

/-- One operation keeps the invariant, and the state only grows. -/
theorem stepFreeze_advances {node : FreezeNode val sig}
    (holds : Holds inst node.state node.output) (input : FreezeInput val sig) :
    Holds inst (stepFreeze inst node input).state (stepFreeze inst node input).output ∧
      Grows node.state (stepFreeze inst node input).state := by
  have after : ∀ {α : Type} {m : Freeze val sig α}, Keeps inst (fun _ => True) m →
      Holds inst (node.after m).state (node.after m).output ∧
        Grows node.state (node.after m).state :=
    fun keeps => keeps node.state node.state node.output ⟨holds, Grows.refl _, trivial⟩
  cases input with
  | justifyCandidate value => exact after (justifyCandidate_keeps inst value)
  | propose candidate => exact after (propose_keeps inst candidate)
  | receiveFreezeMessage party message signature =>
    exact after (receiveFreezeMessage_keeps inst party message signature)
  | processFreezeSummary summary checkSig =>
    exact after (processFreezeSummary_keeps inst checkSig summary)

/-- An operation only adds to the output. -/
theorem stepFreeze_extends_output (node : FreezeNode val sig) (input : FreezeInput val sig) :
    node.output <+: (stepFreeze inst node input).output := by
  cases input <;> exact List.prefix_append _ _

/-- Every run keeps the invariant. -/
theorem FreezeReachable.holds {node : FreezeNode val sig} (reachable : FreezeReachable inst node) :
    Holds inst node.state node.output :=
  Transition.holds (fun node : FreezeNode val sig => Holds inst node.state node.output)
    (fun ⟨input, stepped⟩ holds => stepped ▸ (stepFreeze_advances inst holds input).1) reachable
    (initial_holds inst)

/-- Along a run from a reachable node, the state only grows and the output only extends. -/
theorem FreezeReachable.grows {node node' : FreezeNode val sig}
    (reachable : FreezeReachable inst node)
    (later : Relation.ReflTransGen (FreezeStep inst) node node') :
    Grows node.state node'.state ∧ node.output <+: node'.output := by
  induction later with
  | refl => exact ⟨Grows.refl _, List.prefix_refl _⟩
  | tail earlier step inductionHypothesis =>
    obtain ⟨input, rfl⟩ := step
    have holds := FreezeReachable.holds inst (reachable.trans earlier)
    exact ⟨inductionHypothesis.1.trans (stepFreeze_advances inst holds input).2,
      inductionHypothesis.2.trans (stepFreeze_extends_output inst _ input)⟩

/-- The operations of a list, one after another, make a run. -/
theorem freezeSteps_foldl (inputs : List (FreezeInput val sig)) (node : FreezeNode val sig) :
    Relation.ReflTransGen (FreezeStep inst) node (inputs.foldl (stepFreeze inst) node) := by
  induction inputs generalizing node with
  | nil => exact Relation.ReflTransGen.refl
  | cons input rest inductionHypothesis =>
    exact Relation.ReflTransGen.head ⟨input, rfl⟩ (inductionHypothesis _)

end Runs

/-! ## A run -/

/-- Four parties of weight one, one of them possibly corrupt; we are party `0`. -/
def sampleInstance : FreezeInstance :=
  ⟨4, 1, fun party => if party < 4 then 1 else 0, 0, by decide,
    fun parties => (sum_le_of_support (Finset.range 4)
      (fun _ outside => if_neg (by simpa using outside)) parties).trans (by decide),
    by decide⟩

/-- We justify and propose `5`, and the three other parties propose it too. -/
def sampleProposals : List (FreezeInput Nat Nat) :=
  [.justifyCandidate 5, .propose 5, .receiveFreezeMessage 1 (.Proposal 5) 11,
    .receiveFreezeMessage 2 (.Proposal 5) 12, .receiveFreezeMessage 3 (.Proposal 5) 13]

/-- Then they vote for it. -/
def sampleVotes : List (FreezeInput Nat Nat) :=
  [.receiveFreezeMessage 1 (.Vote (some 5)) 21, .receiveFreezeMessage 2 (.Vote (some 5)) 22,
    .receiveFreezeMessage 3 (.Vote (some 5)) 23]

def sampleProposed : FreezeNode Nat Nat :=
  sampleProposals.foldl (stepFreeze sampleInstance) initialFreezeNode

def sampleNode : FreezeNode Nat Nat :=
  sampleVotes.foldl (stepFreeze sampleInstance) sampleProposed

theorem sampleProposed_reachable : FreezeReachable sampleInstance sampleProposed :=
  freezeSteps_foldl sampleInstance sampleProposals initialFreezeNode

theorem sampleVotes_steps :
    Relation.ReflTransGen (FreezeStep sampleInstance) sampleProposed sampleNode :=
  freezeSteps_foldl sampleInstance sampleVotes sampleProposed

theorem sample_reachable : FreezeReachable sampleInstance sampleNode :=
  Relation.ReflTransGen.trans sampleProposed_reachable sampleVotes_steps

/-- The run proposes, votes, justifies the decision `5` and outputs it. -/
example : sampleNode.output = [.SendFreezeMessage (.Proposal 5),
    .SendFreezeMessage (.Vote (some 5)), .DecisionJustified (some 5), .Frozen (some 5)] := by
  decide

/-! ## What every run keeps -/

section Results

variable [DecidableEq sig] (inst : FreezeInstance)

/-- In whatever order its operations come, Freeze outputs a decision at most once, exactly when
it has completed, and only a justified one: the justified votes for it come from parties whose
weights add up to more than the corrupt weight, and by then the justified voters' weights add up
to at least `totalWeight - corruptWeight`. -/
theorem freeze_frozen_justified {node : FreezeNode val sig}
    (reachable : FreezeReachable inst node) :
    (node.output.filterMap FreezeOutputEvent.frozenDecision).length ≤ 1 ∧
      (node.state.completed = true ↔ ∃ decision, .Frozen decision ∈ node.output) ∧
      ∀ decision, .Frozen decision ∈ node.output →
        (∃ parties, node.state.votes.lookup decision = some (true, parties) ∧
          inst.corruptWeight < ∑ party ∈ parties.members, inst.partyWeight party) ∧
        inst.totalWeight - inst.corruptWeight ≤
          ∑ party ∈ node.state.justifiedVoters.members, inst.partyWeight party := by
  have holds := FreezeReachable.holds inst reachable
  refine ⟨holds.output.frozenOnce, holds.output.completed, fun decision frozen => ⟨?_, ?_⟩⟩
  · obtain ⟨parties, found, heavy⟩ :=
      holds.justified.decisions decision (holds.output.frozenDecided decision frozen)
    refine ⟨parties, found, ?_⟩
    rw [← (holds.tallies.votes.recorded decision _ found).weighted]
    exact heavy
  · rw [← holds.tallies.votes.weighted]
    exact holds.output.finished (holds.output.completed.mpr ⟨decision, frozen⟩)

theorem sample_frozen_justified : FreezeReachable sampleInstance sampleNode ∧
    (sampleNode.output.filterMap FreezeOutputEvent.frozenDecision).length ≤ 1 ∧
      (sampleNode.state.completed = true ↔ ∃ decision, .Frozen decision ∈ sampleNode.output) ∧
      ∀ decision, .Frozen decision ∈ sampleNode.output →
        (∃ parties, sampleNode.state.votes.lookup decision = some (true, parties) ∧
          sampleInstance.corruptWeight < ∑ party ∈ parties.members, sampleInstance.partyWeight party) ∧
        sampleInstance.totalWeight - sampleInstance.corruptWeight ≤
          ∑ party ∈ sampleNode.state.justifiedVoters.members, sampleInstance.partyWeight party :=
  ⟨sample_reachable, freeze_frozen_justified sampleInstance sample_reachable⟩

/-- In whatever order its operations come, every vote Freeze holds justified is Jvote-justified,
every decision it holds justified is Jdec-justified, and it votes for a value only while the value
has a justified proposal from parties of weight at least `totalWeight - corruptWeight`. -/
theorem freeze_justifications {node : FreezeNode val sig}
    (reachable : FreezeReachable inst node) :
    (∀ vote parties, node.state.votes.lookup vote = some (true, parties) →
      VoteJustifiable inst node.state.proposals vote) ∧
    (∀ decision, Decided node.state decision →
      JustifiedAtLeast node.state.votes decision (inst.corruptWeight + 1)) ∧
    ∀ value, .SendFreezeMessage (.Vote (some value)) ∈ node.output →
      JustifiedAtLeast node.state.proposals value (inst.totalWeight - inst.corruptWeight) := by
  have holds := FreezeReachable.holds inst reachable
  exact ⟨holds.justified.votes, holds.justified.decisions, holds.output.voted⟩

theorem sample_justifications : FreezeReachable sampleInstance sampleNode ∧
    (∀ vote parties, sampleNode.state.votes.lookup vote = some (true, parties) →
      VoteJustifiable sampleInstance sampleNode.state.proposals vote) ∧
    (∀ decision, Decided sampleNode.state decision →
      JustifiedAtLeast sampleNode.state.votes decision (sampleInstance.corruptWeight + 1)) ∧
    ∀ value, .SendFreezeMessage (.Vote (some value)) ∈ sampleNode.output →
      JustifiedAtLeast sampleNode.state.proposals value
        (sampleInstance.totalWeight - sampleInstance.corruptWeight) :=
  ⟨sample_reachable, freeze_justifications sampleInstance sample_reachable⟩

/-- In whatever order its operations come, Freeze announces exactly the decisions it holds
justified, each once. -/
theorem freeze_decisions_announced {node : FreezeNode val sig}
    (reachable : FreezeReachable inst node) :
    (∀ decision, .DecisionJustified decision ∈ node.output ↔ Decided node.state decision) ∧
      (node.output.filterMap FreezeOutputEvent.announcedDecision).Nodup := by
  have holds := FreezeReachable.holds inst reachable
  exact ⟨holds.output.announced, holds.output.announcedOnce⟩

theorem sample_decisions_announced : FreezeReachable sampleInstance sampleNode ∧
    (∀ decision, .DecisionJustified decision ∈ sampleNode.output ↔
      Decided sampleNode.state decision) ∧
      (sampleNode.output.filterMap FreezeOutputEvent.announcedDecision).Nodup :=
  ⟨sample_reachable, freeze_decisions_announced sampleInstance sample_reachable⟩

/-- In whatever order its operations come, the tallies of Freeze are exact: the justified
proposers and voters are the parties of the justified proposals and votes,
`distinctJustifiedProposals` is the number of justified proposals made by some weight, every
party map of a proposal or a vote weighs the sum of its parties' weights, each of them positive,
and so do the justified proposers and voters. -/
theorem freeze_tallies {node : FreezeNode val sig} (reachable : FreezeReachable inst node) :
    (∀ party, node.state.justifiedProposers.member party = true ↔
      JustifiedParty node.state.proposals party) ∧
    (∀ party, node.state.justifiedVoters.member party = true ↔
      JustifiedParty node.state.votes party) ∧
    node.state.distinctJustifiedProposals = justifiedCount node.state.proposals ∧
    (∀ value entry, node.state.proposals.lookup value = some entry →
      Recorded inst.partyWeight entry.2) ∧
    (∀ vote entry, node.state.votes.lookup vote = some entry → Recorded inst.partyWeight entry.2) ∧
    node.state.justifiedProposers.WeightedBy inst.partyWeight ∧
    node.state.justifiedVoters.WeightedBy inst.partyWeight := by
  have tallies := (FreezeReachable.holds inst reachable).tallies
  exact ⟨tallies.proposals.justifiedParties, tallies.votes.justifiedParties, tallies.distinct,
    tallies.proposals.recorded, tallies.votes.recorded, tallies.proposals.weighted,
    tallies.votes.weighted⟩

theorem sample_tallies : FreezeReachable sampleInstance sampleNode ∧
    (∀ party, sampleNode.state.justifiedProposers.member party = true ↔
      JustifiedParty sampleNode.state.proposals party) ∧
    (∀ party, sampleNode.state.justifiedVoters.member party = true ↔
      JustifiedParty sampleNode.state.votes party) ∧
    sampleNode.state.distinctJustifiedProposals = justifiedCount sampleNode.state.proposals ∧
    (∀ value entry, sampleNode.state.proposals.lookup value = some entry →
      Recorded sampleInstance.partyWeight entry.2) ∧
    (∀ vote entry, sampleNode.state.votes.lookup vote = some entry →
      Recorded sampleInstance.partyWeight entry.2) ∧
    sampleNode.state.justifiedProposers.WeightedBy sampleInstance.partyWeight ∧
    sampleNode.state.justifiedVoters.WeightedBy sampleInstance.partyWeight :=
  ⟨sample_reachable, freeze_tallies sampleInstance sample_reachable⟩

/-- Along every run from a reachable node, nothing Freeze has recorded or decided is undone: every
party of a proposal or a vote stays one, a justified proposal or vote stays justified with at
least its weight, the justified voters weigh at least what they did, a justified decision stays
justified, a completed instance stays completed, and the output only extends. -/
theorem freeze_run_monotone {node node' : FreezeNode val sig}
    (reachable : FreezeReachable inst node)
    (later : Relation.ReflTransGen (FreezeStep inst) node node') :
    Extends node.state.proposals node'.state.proposals ∧
      Extends node.state.votes node'.state.votes ∧
      Kept node.state.proposals node'.state.proposals ∧ Kept node.state.votes node'.state.votes ∧
      node.state.justifiedVoters.weight ≤ node'.state.justifiedVoters.weight ∧
      (∀ decision, Decided node.state decision → Decided node'.state decision) ∧
      (node.state.completed = true → node'.state.completed = true) ∧
      node.output <+: node'.output := by
  obtain ⟨grown, extended⟩ := FreezeReachable.grows inst reachable later
  have holds := FreezeReachable.holds inst reachable
  have holds' := FreezeReachable.holds inst (Relation.ReflTransGen.trans reachable later)
  refine ⟨grown.proposalParties, grown.voteParties, grown.proposals, grown.votes, grown.voters,
    fun decision decided => ?_, fun done => ?_, extended⟩
  · -- a justified decision was announced, and the announcement stays in the output
    rw [← holds'.output.announced]
    exact extended.subset ((holds.output.announced decision).mpr decided)
  · obtain ⟨decision, frozen⟩ := holds.output.completed.mp done
    exact holds'.output.completed.mpr ⟨decision, extended.subset frozen⟩

theorem sample_run_monotone : FreezeReachable sampleInstance sampleProposed ∧
    Relation.ReflTransGen (FreezeStep sampleInstance) sampleProposed sampleNode ∧
    Extends sampleProposed.state.proposals sampleNode.state.proposals ∧
      Extends sampleProposed.state.votes sampleNode.state.votes ∧
      Kept sampleProposed.state.proposals sampleNode.state.proposals ∧
      Kept sampleProposed.state.votes sampleNode.state.votes ∧
      sampleProposed.state.justifiedVoters.weight ≤ sampleNode.state.justifiedVoters.weight ∧
      (∀ decision, Decided sampleProposed.state decision → Decided sampleNode.state decision) ∧
      (sampleProposed.state.completed = true → sampleNode.state.completed = true) ∧
      sampleProposed.output <+: sampleNode.output :=
  ⟨sampleProposed_reachable, sampleVotes_steps,
    freeze_run_monotone sampleInstance sampleProposed_reachable sampleVotes_steps⟩

end Results

end Concordium.Afgjort.Freeze
