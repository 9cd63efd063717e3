import Concordium.Scheduler.FilterTransactions

/-!
Contract: block construction taken one step at a time, so that what it keeps is proved once per
kind of step and carried along every run.

Owns:
- `GroupPoint`, a point in the processing of a group, and the steps of `runTransactionGroup`
  (`TransactionStep`) and of `runUpdateInstructions` (`UpdateStep`) on its first item, one
  constructor per branch of the source that goes on with the group or ends it with items left
  unprocessed or failed; and `CredentialStep`, what `runCredential` does with one credential
  deployment;
- `NextPoint` and `NextStep`: `runNext` taking the next group whole, skipping it once time is up,
  running the group's steps to its end, or deploying a credential (`runCredential`);
- the run lemmas: every result of `runTransactionGroup`, `runUpdateInstructions` and `runNext` is
  the last point of a run of these steps (`runTransactionGroup_steps`,
  `runUpdateInstructions_steps`, `runNext_steps`), and every result of `runCredential` one of its
  steps (`runCredential_step`).

Does not own: what the steps keep (`Concordium.Scheduler.FilterTransactions.Accounting`). The
steps record what their invariants read: the clock's reading, the checks that let an item be
executed, and the execution's result; the flag that time is up after a group is any.
-/

set_option autoImplicit false

namespace Concordium.Scheduler

variable {World Tx Cred Upd Summary Reason : Type}

/-- A point in the processing of a group: the size of the block so far, the result so far, the
items of the group left and the state. -/
structure GroupPoint (World Tx Cred Upd Summary Reason Item : Type) where
  size : Int
  fts : FilteredTransactions Tx Cred Upd Summary Reason
  rest : List Item
  state : SchedulerState World

/-- A point of `runNext`: its arguments. -/
structure NextPoint (World Tx Cred Upd Summary Reason : Type) where
  size : Int
  credLimit : CredentialsPerBlockLimit
  timeIsUp : Bool
  fts : FilteredTransactions Tx Cred Upd Summary Reason
  groups : List (TransactionGroup Tx Cred Upd)
  state : SchedulerState World

section Construction

variable (effects : SchedulerEffects World Tx Cred Upd Summary Reason)
  (fields : ItemFields Tx Cred Upd Summary) (maxSize : Int) (timeout : UTCTime) (maxEnergy : Energy)

/-- One step of `runTransactionGroup` on the first transaction left, after reading the clock:
time is up and the group is left unprocessed; the transaction fits and is executed, and added
or failed; it fails for needing more than a block's energy; or it is left unprocessed, alone or
with the rest of the group. -/
inductive TransactionStep : GroupPoint World Tx Cred Upd Summary Reason Tx →
    GroupPoint World Tx Cred Upd Summary Reason Tx → Prop
  | timeUp {size fts t ts st now world} :
      effects.currentTime st.world = (now, world) →
      TransactionStep ⟨size, fts, t :: ts, st⟩
        ⟨size, { fts with ftUnprocessed := t :: ts ++ fts.ftUnprocessed }, [],
          { st with world }⟩
  | valid {size fts t ts st now world summary world'} :
      effects.currentTime st.world = (now, world) →
      size + fields.transactionSize t ≤ maxSize →
      st.usedEnergy + fields.transactionGasAmount t ≤ maxEnergy →
      effects.dispatch t { st with world } = (some (.TxValid summary), world') →
      TransactionStep ⟨size, fts, t :: ts, st⟩
        ⟨size + fields.transactionSize t,
          (validTs fields t summary fts ts { st with world := world' }).1.1,
          (validTs fields t summary fts ts { st with world := world' }).1.2,
          (validTs fields t summary fts ts { st with world := world' }).2⟩
  | invalid {size fts t ts st now world reason world'} :
      effects.currentTime st.world = (now, world) →
      effects.dispatch t { st with world } = (some (.TxInvalid reason), world') →
      TransactionStep ⟨size, fts, t :: ts, st⟩
        ⟨size, (invalidTs fields t reason fts ts).1, (invalidTs fields t reason fts ts).2,
          { st with world := world' }⟩
  | exceeds {size fts t ts st now world} :
      effects.currentTime st.world = (now, world) →
      TransactionStep ⟨size, fts, t :: ts, st⟩
        ⟨size, (invalidTs fields t .ExceedsMaxBlockEnergy fts ts).1,
          (invalidTs fields t .ExceedsMaxBlockEnergy fts ts).2, { st with world }⟩
  | deferred {size fts t ts st now world} :
      effects.currentTime st.world = (now, world) →
      TransactionStep ⟨size, fts, t :: ts, st⟩
        ⟨size, { fts with ftUnprocessed := t :: fts.ftUnprocessed }, ts, { st with world }⟩
  | leftUnprocessed {size fts t ts st now world} :
      effects.currentTime st.world = (now, world) →
      TransactionStep ⟨size, fts, t :: ts, st⟩
        ⟨size, { fts with ftUnprocessed := t :: ts ++ fts.ftUnprocessed }, [],
          { st with world }⟩

/-- One step of `runUpdateInstructions` on the first update left, after reading the clock: time
is up; the update fits and is executed, and fails alone, fails with the rest of the group, or is
added with the updates of its sequence number after it failed; or it is left unprocessed, alone
or with the rest of the group. -/
inductive UpdateStep : GroupPoint World Tx Cred Upd Summary Reason Upd →
    GroupPoint World Tx Cred Upd Summary Reason Upd → Prop
  | timeUp {size fts ui uis st now world} :
      effects.currentTime st.world = (now, world) →
      UpdateStep ⟨size, fts, ui :: uis, st⟩
        ⟨size, { fts with ftUnprocessedUpdates := ui :: uis ++ fts.ftUnprocessedUpdates }, [],
          { st with world }⟩
  | invalid {size fts ui uis st now world reason world'} :
      effects.currentTime st.world = (now, world) →
      effects.handleChainUpdate ui { st with world } = (.TxInvalid reason, world') →
      UpdateStep ⟨size, fts, ui :: uis, st⟩
        ⟨size, { fts with ftFailedUpdates := (ui, reason) :: fts.ftFailedUpdates }, uis,
          { st with world := world' }⟩
  | invalidSuccessors {size fts ui uis st now world reason world'} :
      effects.currentTime st.world = (now, world) →
      effects.handleChainUpdate ui { st with world } = (.TxInvalid reason, world') →
      UpdateStep ⟨size, fts, ui :: uis, st⟩
        ⟨size,
          { fts with
            ftFailedUpdates := (ui, reason) ::
              (uis.map fun u => (u, .SuccessorOfInvalidTransaction)) ++ fts.ftFailedUpdates },
          [], { st with world := world' }⟩
  | valid {size fts ui uis st now world summary world'} :
      effects.currentTime st.world = (now, world) →
      size + fields.updateSize ui ≤ maxSize →
      effects.handleChainUpdate ui { st with world } = (.TxValid summary, world') →
      UpdateStep ⟨size, fts, ui :: uis, st⟩
        ⟨size + fields.updateSize ui,
          { fts with
            ftFailedUpdates :=
              (uis.span fun u => fields.updateSeqNumber ui == fields.updateSeqNumber u).1.map
                  (fun u => (u, .NonSequentialNonce (fields.updateSeqNumber ui + 1))) ++
                fts.ftFailedUpdates
            ftAdded := (.chainUpdate ui, summary) :: fts.ftAdded },
          (uis.span fun u => fields.updateSeqNumber ui == fields.updateSeqNumber u).2,
          { st with world := world' }⟩
  | deferred {size fts ui uis st now world} :
      effects.currentTime st.world = (now, world) →
      UpdateStep ⟨size, fts, ui :: uis, st⟩
        ⟨size, { fts with ftUnprocessedUpdates := ui :: fts.ftUnprocessedUpdates }, uis,
          { st with world }⟩
  | leftUnprocessed {size fts ui uis st now world} :
      effects.currentTime st.world = (now, world) →
      UpdateStep ⟨size, fts, ui :: uis, st⟩
        ⟨size, { fts with ftUnprocessedUpdates := ui :: uis ++ fts.ftUnprocessedUpdates }, [],
          { st with world }⟩

/-- What `runCredential` does with a credential deployment after reading the clock: time is up
and it is left unprocessed; it passes the checks, is executed and fails or is added, taking one
from the limit on credentials; it fails for costing more than a block's energy; or it is left
unprocessed. -/
inductive CredentialStep (size : Int) (credLimit : CredentialsPerBlockLimit)
    (fts : FilteredTransactions Tx Cred Upd Summary Reason) (c : Cred) (st : SchedulerState World) :
    Resume World Tx Cred Upd Summary Reason × CredentialsPerBlockLimit → Prop
  | timeUp {now world} :
      effects.currentTime st.world = (now, world) →
      CredentialStep size credLimit fts c st
        (⟨true, size, { fts with ftUnprocessedCredentials := c :: fts.ftUnprocessedCredentials },
          { st with world }⟩, credLimit)
  | invalid {now world reason world'} :
      effects.currentTime st.world = (now, world) →
      0 < credLimit → size + fields.credentialSize c ≤ maxSize →
      st.usedEnergy + fields.deployCredential c ≤ maxEnergy →
      effects.handleDeployCredential c { st with world } = (some (.TxInvalid reason), world') →
      CredentialStep size credLimit fts c st
        (⟨false, size, { fts with ftFailedCredentials := (c, reason) :: fts.ftFailedCredentials },
          { st with world := world' }⟩, credLimit - 1)
  | valid {now world summary world'} :
      effects.currentTime st.world = (now, world) →
      0 < credLimit → size + fields.credentialSize c ≤ maxSize →
      st.usedEnergy + fields.deployCredential c ≤ maxEnergy →
      effects.handleDeployCredential c { st with world } = (some (.TxValid summary), world') →
      CredentialStep size credLimit fts c st
        (⟨false, size + fields.credentialSize c,
          { fts with ftAdded := (.credentialDeployment c, summary) :: fts.ftAdded },
          markEnergyUsed (fields.tsEnergyCost summary) { st with world := world' }⟩,
          credLimit - 1)
  | exceeds {now world} :
      effects.currentTime st.world = (now, world) →
      CredentialStep size credLimit fts c st
        (⟨false, size,
          { fts with
            ftFailedCredentials := (c, .ExceedsMaxBlockEnergy) :: fts.ftFailedCredentials },
          { st with world }⟩, credLimit)
  | deferred {now world} :
      effects.currentTime st.world = (now, world) →
      CredentialStep size credLimit fts c st
        (⟨false, size, { fts with ftUnprocessedCredentials := c :: fts.ftUnprocessedCredentials },
          { st with world }⟩, credLimit)

/-- `runNext` on its next group: once time is up, the group is left unprocessed whole;
otherwise an account's transactions or a type's updates are processed to the end of a run of
their steps, and a credential is deployed by `runCredential`. -/
inductive NextStep : NextPoint World Tx Cred Upd Summary Reason →
    NextPoint World Tx Cred Upd Summary Reason → Prop
  | skipTransactions {size credLimit fts group groups st} :
      NextStep ⟨size, credLimit, true, fts, .TGAccountTransactions group :: groups, st⟩
        ⟨size, credLimit, true, { fts with ftUnprocessed := group ++ fts.ftUnprocessed }, groups,
          st⟩
  | skipCredential {size credLimit fts c groups st} :
      NextStep ⟨size, credLimit, true, fts, .TGCredentialDeployment c :: groups, st⟩
        ⟨size, credLimit, true,
          { fts with ftUnprocessedCredentials := c :: fts.ftUnprocessedCredentials }, groups, st⟩
  | skipUpdates {size credLimit fts group groups st} :
      NextStep ⟨size, credLimit, true, fts, .TGUpdateInstructions group :: groups, st⟩
        ⟨size, credLimit, true,
          { fts with ftUnprocessedUpdates := group ++ fts.ftUnprocessedUpdates }, groups, st⟩
  | transactions {size credLimit fts group groups st last} (timeIsUp : Bool) :
      Relation.ReflTransGen (TransactionStep effects fields maxSize maxEnergy)
        ⟨size, fts, group, st⟩ last →
      last.rest = [] →
      NextStep ⟨size, credLimit, false, fts, .TGAccountTransactions group :: groups, st⟩
        ⟨last.size, credLimit, timeIsUp, last.fts, groups, last.state⟩
  | credential {size credLimit fts c groups st next credLimit'} :
      runCredential effects fields maxSize timeout maxEnergy size credLimit fts c st =
        some (next, credLimit') →
      NextStep ⟨size, credLimit, false, fts, .TGCredentialDeployment c :: groups, st⟩
        ⟨next.size, credLimit', next.timeIsUp, next.fts, groups, next.state⟩
  | updates {size credLimit fts group groups st last} (timeIsUp : Bool) :
      Relation.ReflTransGen (UpdateStep effects fields maxSize)
        ⟨size, fts, group, st⟩ last →
      last.rest = [] →
      NextStep ⟨size, credLimit, false, fts, .TGUpdateInstructions group :: groups, st⟩
        ⟨last.size, credLimit, timeIsUp, last.fts, groups, last.state⟩

/-! ## Every result is the end of a run of steps -/

theorem runTransactionGroup_steps {size : Int}
    {fts : FilteredTransactions Tx Cred Upd Summary Reason} {ts : List Tx}
    {st : SchedulerState World} {result : Resume World Tx Cred Upd Summary Reason}
    (ran : runTransactionGroup effects fields maxSize timeout maxEnergy size fts ts st =
      some result) :
    ∃ last, Relation.ReflTransGen (TransactionStep effects fields maxSize maxEnergy)
        ⟨size, fts, ts, st⟩ last ∧ last.rest = [] ∧
      result = ⟨result.timeIsUp, last.size, last.fts, last.state⟩ := by
  fun_induction runTransactionGroup effects fields maxSize timeout maxEnergy size fts ts st
    generalizing result with
  | case1 size fts st =>
      cases ran
      exact ⟨⟨size, fts, [], st⟩, .refl, rfl, rfl⟩
  | case2 _ _ _ _ _ _ _ clock =>
      cases ran
      exact ⟨_, .single (.timeUp clock), rfl, rfl⟩
  | case3 _ _ _ _ _ _ _ _ _ _ _ clock _ _ checks _ _ executed =>
      rename_i inductionHypothesis
      obtain ⟨last, run, done, same⟩ := inductionHypothesis ran
      exact ⟨last, .head (.valid clock checks.1 checks.2 executed) run, done, same⟩
  | case4 _ _ _ _ _ _ _ _ _ _ _ clock _ _ _ _ _ executed =>
      rename_i inductionHypothesis
      obtain ⟨last, run, done, same⟩ := inductionHypothesis ran
      exact ⟨last, .head (.invalid clock executed) run, done, same⟩
  | case5 => cases ran
  | case6 _ _ _ _ _ _ _ _ _ _ _ clock =>
      rename_i inductionHypothesis
      obtain ⟨last, run, done, same⟩ := inductionHypothesis ran
      exact ⟨last, .head (.exceeds clock) run, done, same⟩
  | case7 _ _ _ _ _ _ _ _ _ _ _ clock =>
      rename_i inductionHypothesis
      obtain ⟨last, run, done, same⟩ := inductionHypothesis ran
      exact ⟨last, .head (.deferred clock) run, done, same⟩
  | case8 _ _ _ _ _ _ _ _ _ _ _ clock =>
      cases ran
      exact ⟨_, .single (.leftUnprocessed clock), rfl, rfl⟩

theorem runCredential_step {size : Int} {credLimit : CredentialsPerBlockLimit}
    {fts : FilteredTransactions Tx Cred Upd Summary Reason} {c : Cred} {st : SchedulerState World}
    {result : Resume World Tx Cred Upd Summary Reason × CredentialsPerBlockLimit}
    (ran : runCredential effects fields maxSize timeout maxEnergy size credLimit fts c st =
      some result) :
    CredentialStep effects fields maxSize maxEnergy size credLimit fts c st result := by
  revert ran
  fun_cases runCredential effects fields maxSize timeout maxEnergy size credLimit fts c st
  case case1 _ _ clock _ _ =>
    intro ran
    cases ran
    exact .timeUp clock
  case case2 _ _ _ _ _ _ clock _ _ checks _ _ executed =>
    intro ran
    cases ran
    exact .invalid clock checks.1 checks.2.1 checks.2.2 executed
  case case3 _ _ _ _ _ _ clock _ _ checks _ _ executed =>
    intro ran
    cases ran
    exact .valid clock checks.1 checks.2.1 checks.2.2 executed
  case case4 => exact fun ran => by cases ran
  case case5 _ _ _ _ _ _ clock _ _ _ _ =>
    intro ran
    cases ran
    exact .exceeds clock
  case case6 _ _ _ _ _ _ clock _ _ _ _ =>
    intro ran
    cases ran
    exact .deferred clock

theorem runUpdateInstructions_steps {size : Int}
    {fts : FilteredTransactions Tx Cred Upd Summary Reason} {uis : List Upd}
    {st : SchedulerState World} {result : Resume World Tx Cred Upd Summary Reason}
    (ran : runUpdateInstructions effects fields maxSize timeout size fts uis st = some result) :
    ∃ last, Relation.ReflTransGen (UpdateStep effects fields maxSize)
        ⟨size, fts, uis, st⟩ last ∧ last.rest = [] ∧
      result = ⟨result.timeIsUp, last.size, last.fts, last.state⟩ := by
  fun_induction runUpdateInstructions effects fields maxSize timeout size fts uis st
    generalizing result with
  | case1 size fts st =>
      cases ran
      exact ⟨⟨size, fts, [], st⟩, .refl, rfl, rfl⟩
  | case2 _ _ _ _ _ _ _ clock =>
      cases ran
      exact ⟨_, .single (.timeUp clock), rfl, rfl⟩
  | case3 _ _ _ _ _ _ _ _ clock _ _ _ _ _ executed =>
      rename_i inductionHypothesis
      obtain ⟨last, run, done, same⟩ := inductionHypothesis ran
      exact ⟨last, .head (.invalid clock executed) run, done, same⟩
  | case4 _ _ _ _ _ _ _ _ clock _ _ _ _ _ executed =>
      cases ran
      exact ⟨_, .single (.invalidSuccessors clock executed), rfl, rfl⟩
  | case5 _ _ _ _ _ _ _ _ clock _ _ fits _ _ executed =>
      rename_i inductionHypothesis
      obtain ⟨last, run, done, same⟩ := inductionHypothesis ran
      exact ⟨last, .head (.valid clock fits executed) run, done, same⟩
  | case6 _ _ _ _ _ _ _ _ clock =>
      rename_i inductionHypothesis
      obtain ⟨last, run, done, same⟩ := inductionHypothesis ran
      exact ⟨last, .head (.deferred clock) run, done, same⟩
  | case7 _ _ _ _ _ _ _ _ clock =>
      cases ran
      exact ⟨_, .single (.leftUnprocessed clock), rfl, rfl⟩

theorem runNext_steps : ∀ {groups : List (TransactionGroup Tx Cred Upd)} {size : Int}
    {credLimit : CredentialsPerBlockLimit} {timeIsUp : Bool}
    {fts : FilteredTransactions Tx Cred Upd Summary Reason} {st : SchedulerState World}
    {result : FilteredTransactions Tx Cred Upd Summary Reason × SchedulerState World},
    runNext effects fields maxSize timeout maxEnergy size credLimit timeIsUp fts groups st =
      some result →
    ∃ last, Relation.ReflTransGen (NextStep effects fields maxSize timeout maxEnergy)
        ⟨size, credLimit, timeIsUp, fts, groups, st⟩ last ∧ last.groups = [] ∧
      result = ({ last.fts with ftAdded := last.fts.ftAdded.reverse }, last.state)
  | [], size, credLimit, timeIsUp, fts, st, result, ran => by
      rw [runNext] at ran
      cases ran
      exact ⟨⟨size, credLimit, timeIsUp, fts, [], st⟩, .refl, rfl, rfl⟩
  | .TGAccountTransactions _ :: _, _, _, true, _, _, _, ran => by
      rw [runNext] at ran
      obtain ⟨last, run, done, same⟩ := runNext_steps ran
      exact ⟨last, .head .skipTransactions run, done, same⟩
  | .TGCredentialDeployment _ :: _, _, _, true, _, _, _, ran => by
      rw [runNext] at ran
      obtain ⟨last, run, done, same⟩ := runNext_steps ran
      exact ⟨last, .head .skipCredential run, done, same⟩
  | .TGUpdateInstructions _ :: _, _, _, true, _, _, _, ran => by
      rw [runNext] at ran
      obtain ⟨last, run, done, same⟩ := runNext_steps ran
      exact ⟨last, .head .skipUpdates run, done, same⟩
  | .TGAccountTransactions _ :: _, _, _, false, _, _, _, ran => by
      rw [runNext, Option.bind_eq_some_iff] at ran
      obtain ⟨next, groupRan, restRan⟩ := ran
      obtain ⟨groupLast, groupRun, groupDone, nextIs⟩ :=
        runTransactionGroup_steps effects fields maxSize timeout maxEnergy groupRan
      rw [nextIs] at restRan
      obtain ⟨last, run, done, same⟩ := runNext_steps restRan
      exact ⟨last, .head (.transactions next.timeIsUp groupRun groupDone) run, done, same⟩
  | .TGCredentialDeployment _ :: _, _, _, false, _, _, _, ran => by
      rw [runNext, Option.bind_eq_some_iff] at ran
      obtain ⟨next, credentialRan, restRan⟩ := ran
      obtain ⟨last, run, done, same⟩ := runNext_steps restRan
      exact ⟨last, .head (.credential credentialRan) run, done, same⟩
  | .TGUpdateInstructions _ :: _, _, _, false, _, _, _, ran => by
      rw [runNext, Option.bind_eq_some_iff] at ran
      obtain ⟨next, groupRan, restRan⟩ := ran
      obtain ⟨groupLast, groupRun, groupDone, nextIs⟩ :=
        runUpdateInstructions_steps effects fields maxSize timeout groupRan
      rw [nextIs] at restRan
      obtain ⟨last, run, done, same⟩ := runNext_steps restRan
      exact ⟨last, .head (.updates next.timeIsUp groupRun groupDone) run, done, same⟩

end Construction

end Concordium.Scheduler
