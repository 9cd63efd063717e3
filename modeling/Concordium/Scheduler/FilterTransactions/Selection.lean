import Concordium.Scheduler.FilterTransactions.Accounting

/-!
Contract: which transactions of an account, and which update instructions of a type, block
construction adds.

Owns:
- `NoncesPicked` and `SequencesPicked`: within a group, what the steps have added since the
  group's start is picked along the group (`SortedKey.PickedAlong`), by nonce or by sequence
  number: adding an item passes over the items of its nonce after it (`validTs`), and every other
  step passes over items without adding them;
- `NoncesChosen` and `SequencesChosen`: across the groups `runNext` has processed, what it added
  of each account (of each type of update) is a sublist of that group with strictly increasing
  nonces (sequence numbers), in the order of the groups;
- `filterTransactions_nonces` and `filterTransactions_sequenceNumbers`.

Does not own: the ledgers and limits (`Concordium.Scheduler.FilterTransactions.Accounting`).
The groups are ordered as `filterTransactions` expects them, an account's transactions by
nonce and a type's updates by sequence number; nothing else is assumed of the executions.
-/

set_option autoImplicit false

namespace Concordium.Scheduler

variable {World Tx Cred Upd Summary Reason : Type}

/-- A transaction's nonce as a number: the key its account's group is ordered by. -/
def nonceKey (fields : ItemFields Tx Cred Upd Summary) (t : Tx) : Nat :=
  (fields.transactionNonce t).toNat

/-- An update instruction's sequence number as a number. -/
def sequenceKey (fields : ItemFields Tx Cred Upd Summary) (u : Upd) : Nat :=
  (fields.updateSeqNumber u).toNat

section Selection

variable {effects : SchedulerEffects World Tx Cred Upd Summary Reason}
  {fields : ItemFields Tx Cred Upd Summary} {maxSize : Int} {timeout : UTCTime}
  {maxEnergy : Energy}

/-! ## What each kind of step adds of the other kinds -/

theorem addedTransactions_frame {fts fts' : FilteredTransactions Tx Cred Upd Summary Reason}
    (same : fts'.ftAdded = fts.ftAdded) : addedTransactions fts' = addedTransactions fts := by
  rw [addedTransactions, same, addedTransactions]

theorem addedUpdates_frame {fts fts' : FilteredTransactions Tx Cred Upd Summary Reason}
    (same : fts'.ftAdded = fts.ftAdded) : addedUpdates fts' = addedUpdates fts := by
  rw [addedUpdates, same, addedUpdates]

theorem TransactionStep.addedUpdates {p q : GroupPoint World Tx Cred Upd Summary Reason Tx}
    (step : TransactionStep effects fields maxSize maxEnergy p q) :
    addedUpdates q.fts = addedUpdates p.fts := by
  cases step with
  | timeUp _ | deferred _ | leftUnprocessed _ => rfl
  | invalid _ _ | exceeds _ => exact addedUpdates_frame (ftAdded_invalidTs _ _ _ _)
  | valid =>
      rw [validTs_eq]
      simp only [Concordium.Scheduler.addedUpdates, List.filterMap_cons, BlockItem.chainUpdate?]

theorem UpdateStep.addedTransactions {p q : GroupPoint World Tx Cred Upd Summary Reason Upd}
    (step : UpdateStep effects fields maxSize p q) :
    addedTransactions q.fts = addedTransactions p.fts := by
  cases step with
  | timeUp _ | invalid _ _ | invalidSuccessors _ _ | deferred _ | leftUnprocessed _ => rfl
  | valid =>
      simp only [Concordium.Scheduler.addedTransactions, List.filterMap_cons,
        BlockItem.normalTransaction?]

/-- A credential deployment adds neither a transaction nor an update instruction. -/
theorem CredentialStep.addedTransactions_addedUpdates {size : Int}
    {credLimit : CredentialsPerBlockLimit} {fts : FilteredTransactions Tx Cred Upd Summary Reason}
    {c : Cred} {st : SchedulerState World} {next : Resume World Tx Cred Upd Summary Reason}
    {credLimit' : CredentialsPerBlockLimit}
    (step : CredentialStep effects fields maxSize maxEnergy size credLimit fts c st
      (next, credLimit')) :
    addedTransactions next.fts = addedTransactions fts ∧ addedUpdates next.fts = addedUpdates fts := by
  cases step <;>
    simp only [addedTransactions, addedUpdates, List.filterMap_cons, BlockItem.normalTransaction?,
      BlockItem.chainUpdate?, and_self]

/-! ## Within a group -/

theorem TransactionStep.rest_suffix {p q : GroupPoint World Tx Cred Upd Summary Reason Tx}
    (step : TransactionStep effects fields maxSize maxEnergy p q) : q.rest <:+ p.rest := by
  obtain ⟨t, ts, taken, suffix⟩ := step.rest
  rw [taken]
  exact suffix.trans (List.suffix_cons t ts)

/-- What a group's steps have added since `start`: transactions picked along the group by
nonce, the latest first. -/
def NoncesPicked (fields : ItemFields Tx Cred Upd Summary)
    (start p : GroupPoint World Tx Cred Upd Summary Reason Tx) : Prop :=
  ∃ picked, addedTransactions p.fts = picked.reverse ++ addedTransactions start.fts ∧
    SortedKey.PickedAlong (nonceKey fields) start.rest picked p.rest

theorem TransactionStep.noncesPicked {start p q : GroupPoint World Tx Cred Upd Summary Reason Tx}
    (sorted : SortedKey.Sorted (nonceKey fields) start.rest)
    (step : TransactionStep effects fields maxSize maxEnergy p q)
    (picks : NoncesPicked fields start p) : NoncesPicked fields start q := by
  obtain ⟨picked, added, along⟩ := picks
  have suffix := step.rest_suffix
  cases step with
  | timeUp _ | deferred _ | leftUnprocessed _ => exact ⟨picked, added, along.skip suffix⟩
  | invalid _ _ | exceeds _ =>
      exact ⟨picked, (addedTransactions_frame (ftAdded_invalidTs _ _ _ _)).trans added,
        along.skip suffix⟩
  | @valid size fts t ts st now world summary world' =>
      rw [validTs_eq] at suffix ⊢
      refine ⟨picked ++ [t], ?_, along.pick sorted (sameNonce fields t) fun entry other => ?_⟩
      · simp only [addedTransactions, List.filterMap_cons, BlockItem.normalTransaction?,
          List.reverse_append, List.reverse_singleton, List.cons_append, List.nil_append] at added ⊢
        rw [added]
      · -- `validTs` passes over exactly the transactions of `t`'s nonce
        intro same
        rw [sameNonce, UInt64.toNat_inj.mp same, beq_self_eq_true] at other
        exact Bool.noConfusion other

theorem UpdateStep.rest_suffix {p q : GroupPoint World Tx Cred Upd Summary Reason Upd}
    (step : UpdateStep effects fields maxSize p q) : q.rest <:+ p.rest := by
  cases step with
  | timeUp _ | invalidSuccessors _ _ | leftUnprocessed _ => exact List.nil_suffix
  | invalid _ _ | deferred _ => exact List.suffix_cons _ _
  | @valid size fts ui uis =>
      rw [List.span_eq_takeWhile_dropWhile]
      exact (List.dropWhile_suffix _).trans (List.suffix_cons ui uis)

/-- What a group's steps have added since `start`: update instructions picked along the group
by sequence number, the latest first. -/
def SequencesPicked (fields : ItemFields Tx Cred Upd Summary)
    (start p : GroupPoint World Tx Cred Upd Summary Reason Upd) : Prop :=
  ∃ picked, addedUpdates p.fts = picked.reverse ++ addedUpdates start.fts ∧
    SortedKey.PickedAlong (sequenceKey fields) start.rest picked p.rest

theorem UpdateStep.sequencesPicked {start p q : GroupPoint World Tx Cred Upd Summary Reason Upd}
    (sorted : SortedKey.Sorted (sequenceKey fields) start.rest)
    (step : UpdateStep effects fields maxSize p q)
    (picks : SequencesPicked fields start p) : SequencesPicked fields start q := by
  obtain ⟨picked, added, along⟩ := picks
  have suffix := step.rest_suffix
  cases step with
  | timeUp _ | invalid _ _ | invalidSuccessors _ _ | deferred _ | leftUnprocessed _ =>
      exact ⟨picked, added, along.skip suffix⟩
  | @valid size fts ui uis st now world summary world' =>
      rw [List.span_eq_takeWhile_dropWhile]
      refine ⟨picked ++ [ui], ?_, along.pick sorted _ fun entry other => ?_⟩
      · simp only [addedUpdates, List.filterMap_cons, BlockItem.chainUpdate?,
          List.reverse_append, List.reverse_singleton, List.cons_append, List.nil_append] at added ⊢
        rw [added]
      · -- the updates passed over are those of `ui`'s sequence number
        intro same
        rw [UInt64.toNat_inj.mp same, beq_self_eq_true] at other
        exact Bool.noConfusion other

/-! ## Across the groups -/

/-- What `runNext` has added from the account groups of `processed`, the groups before the
ones left: from each a sublist with strictly increasing nonces, in the order of the groups, the
latest first. -/
def NoncesChosen (fields : ItemFields Tx Cred Upd Summary)
    (groups : List (TransactionGroup Tx Cred Upd))
    (p : NextPoint World Tx Cred Upd Summary Reason) : Prop :=
  ∃ processed chosen, groups = processed ++ p.groups ∧
    List.Forall₂ (fun chosen group => chosen.Sublist group ∧
        chosen.Pairwise fun first second => nonceKey fields first < nonceKey fields second)
      chosen (perAccountTransactions processed) ∧
    addedTransactions p.fts = chosen.flatten.reverse

theorem NextStep.noncesChosen {groups : List (TransactionGroup Tx Cred Upd)}
    (sorted : ∀ group ∈ perAccountTransactions groups, SortedKey.Sorted (nonceKey fields) group)
    {p q : NextPoint World Tx Cred Upd Summary Reason}
    (step : NextStep effects fields maxSize timeout maxEnergy p q)
    (chosenSoFar : NoncesChosen fields groups p) : NoncesChosen fields groups q := by
  obtain ⟨processed, chosen, split, related, added⟩ := chosenSoFar
  cases step with
  | @skipTransactions size credLimit fts group rest st =>
      refine ⟨processed ++ [.TGAccountTransactions group], chosen ++ [[]], by simp [split], ?_,
        by rw [List.flatten_append, List.flatten_singleton, List.append_nil]; exact added⟩
      simp only [perAccountTransactions, List.filterMap_append, List.filterMap_cons,
        List.filterMap_nil]
      exact List.rel_append related (.cons ⟨List.nil_sublist _, List.Pairwise.nil⟩ .nil)
  | @skipCredential size credLimit fts c rest st =>
      refine ⟨processed ++ [.TGCredentialDeployment c], chosen, by simp [split], ?_, added⟩
      simpa [perAccountTransactions, List.filterMap_append] using related
  | @skipUpdates size credLimit fts group rest st =>
      refine ⟨processed ++ [.TGUpdateInstructions group], chosen, by simp [split], ?_, added⟩
      simpa [perAccountTransactions, List.filterMap_append] using related
  | @transactions size credLimit fts group rest st last _ run done =>
      have groupSorted : SortedKey.Sorted (nonceKey fields) group :=
        sorted group (by simp [split, perAccountTransactions, List.filterMap_append])
      obtain ⟨picked, pickedAdded, along⟩ := Transition.holds
        (fun point => NoncesPicked fields ⟨size, fts, group, st⟩ point)
        (fun step => step.noncesPicked groupSorted) run
        ⟨[], rfl, SortedKey.PickedAlong.start group⟩
      rw [done] at along
      refine ⟨processed ++ [.TGAccountTransactions group], chosen ++ [picked], by simp [split], ?_,
        ?_⟩
      · simp only [perAccountTransactions, List.filterMap_append, List.filterMap_cons,
          List.filterMap_nil]
        exact List.rel_append related (.cons along.finish .nil)
      · rw [pickedAdded, added]
        simp
  | @credential size credLimit fts c rest st next credLimit' ran =>
      refine ⟨processed ++ [.TGCredentialDeployment c], chosen, by simp [split], ?_, ?_⟩
      · simpa [perAccountTransactions, List.filterMap_append] using related
      · rw [((runCredential_step effects fields maxSize timeout maxEnergy ran).addedTransactions_addedUpdates).1]
        exact added
  | @updates size credLimit fts group rest st last _ run _ =>
      refine ⟨processed ++ [.TGUpdateInstructions group], chosen, by simp [split], ?_, ?_⟩
      · simpa [perAccountTransactions, List.filterMap_append] using related
      · rw [Transition.conserved (fun point => addedTransactions point.fts)
          (fun step => step.addedTransactions) run]
        exact added

/-- What `runNext` has added from the update groups of `processed`: from each a sublist with
strictly increasing sequence numbers, in the order of the groups, the latest first. -/
def SequencesChosen (fields : ItemFields Tx Cred Upd Summary)
    (groups : List (TransactionGroup Tx Cred Upd))
    (p : NextPoint World Tx Cred Upd Summary Reason) : Prop :=
  ∃ processed chosen, groups = processed ++ p.groups ∧
    List.Forall₂ (fun chosen group => chosen.Sublist group ∧
        chosen.Pairwise fun first second => sequenceKey fields first < sequenceKey fields second)
      chosen (updateGroups processed) ∧
    addedUpdates p.fts = chosen.flatten.reverse

theorem NextStep.sequencesChosen {groups : List (TransactionGroup Tx Cred Upd)}
    (sorted : ∀ group ∈ updateGroups groups, SortedKey.Sorted (sequenceKey fields) group)
    {p q : NextPoint World Tx Cred Upd Summary Reason}
    (step : NextStep effects fields maxSize timeout maxEnergy p q)
    (chosenSoFar : SequencesChosen fields groups p) : SequencesChosen fields groups q := by
  obtain ⟨processed, chosen, split, related, added⟩ := chosenSoFar
  cases step with
  | @skipUpdates size credLimit fts group rest st =>
      refine ⟨processed ++ [.TGUpdateInstructions group], chosen ++ [[]], by simp [split], ?_,
        by rw [List.flatten_append, List.flatten_singleton, List.append_nil]; exact added⟩
      simp only [updateGroups, List.filterMap_append, List.filterMap_cons, List.filterMap_nil]
      exact List.rel_append related (.cons ⟨List.nil_sublist _, List.Pairwise.nil⟩ .nil)
  | @skipCredential size credLimit fts c rest st =>
      refine ⟨processed ++ [.TGCredentialDeployment c], chosen, by simp [split], ?_, added⟩
      simpa [updateGroups, List.filterMap_append] using related
  | @skipTransactions size credLimit fts group rest st =>
      refine ⟨processed ++ [.TGAccountTransactions group], chosen, by simp [split], ?_, added⟩
      simpa [updateGroups, List.filterMap_append] using related
  | @updates size credLimit fts group rest st last _ run done =>
      have groupSorted : SortedKey.Sorted (sequenceKey fields) group :=
        sorted group (by simp [split, updateGroups, List.filterMap_append])
      obtain ⟨picked, pickedAdded, along⟩ := Transition.holds
        (fun point => SequencesPicked fields ⟨size, fts, group, st⟩ point)
        (fun step => step.sequencesPicked groupSorted) run
        ⟨[], rfl, SortedKey.PickedAlong.start group⟩
      rw [done] at along
      refine ⟨processed ++ [.TGUpdateInstructions group], chosen ++ [picked], by simp [split], ?_,
        ?_⟩
      · simp only [updateGroups, List.filterMap_append, List.filterMap_cons, List.filterMap_nil]
        exact List.rel_append related (.cons along.finish .nil)
      · rw [pickedAdded, added]
        simp
  | @credential size credLimit fts c rest st next credLimit' ran =>
      refine ⟨processed ++ [.TGCredentialDeployment c], chosen, by simp [split], ?_, ?_⟩
      · simpa [updateGroups, List.filterMap_append] using related
      · rw [((runCredential_step effects fields maxSize timeout maxEnergy ran).addedTransactions_addedUpdates).2]
        exact added
  | @transactions size credLimit fts group rest st last _ run _ =>
      refine ⟨processed ++ [.TGAccountTransactions group], chosen, by simp [split], ?_, ?_⟩
      · simpa [updateGroups, List.filterMap_append] using related
      · rw [Transition.conserved (fun point => addedUpdates point.fts)
          (fun step => step.addedUpdates) run]
        exact added

theorem addedTransactions_reverse (fts : FilteredTransactions Tx Cred Upd Summary Reason) :
    addedTransactions { fts with ftAdded := fts.ftAdded.reverse } =
      (addedTransactions fts).reverse :=
  List.filterMap_reverse

theorem addedUpdates_reverse (fts : FilteredTransactions Tx Cred Upd Summary Reason) :
    addedUpdates { fts with ftAdded := fts.ftAdded.reverse } = (addedUpdates fts).reverse :=
  List.filterMap_reverse

/-- Block construction adds, of each account, a sublist of its transactions with strictly
increasing nonces, and adds them account by account in the order of the groups: no two added
transactions of an account share a nonce, and none comes after one of a higher nonce. It needs
each account's group ordered by nonce, as `filterTransactions` expects. -/
theorem filterTransactions_nonces {groups : List (TransactionGroup Tx Cred Upd)}
    {st : SchedulerState World}
    {result : FilteredTransactions Tx Cred Upd Summary Reason × SchedulerState World}
    (sorted : ∀ group ∈ perAccountTransactions groups, group.Pairwise fun first second =>
      fields.transactionNonce first ≤ fields.transactionNonce second)
    (ran : filterTransactions effects fields maxSize timeout groups st = some result) :
    ∃ chosen, List.Forall₂ (fun chosen group => chosen.Sublist group ∧
        chosen.Pairwise fun first second =>
          fields.transactionNonce first < fields.transactionNonce second)
      chosen (perAccountTransactions groups) ∧ addedTransactions result.1 = chosen.flatten := by
  obtain ⟨last, run, done, rfl⟩ := runNext_steps effects fields maxSize timeout _ ran
  have keySorted : ∀ group ∈ perAccountTransactions groups,
      SortedKey.Sorted (nonceKey fields) group := fun group listed =>
    (sorted group listed).imp fun below => UInt64.le_iff_toNat_le.mp below
  obtain ⟨processed, chosen, split, related, added⟩ := Transition.holds
    (NoncesChosen fields groups) (fun step => step.noncesChosen keySorted) run
    ⟨[], [], rfl, .nil, rfl⟩
  rw [done, List.append_nil] at split
  refine ⟨chosen, ?_, ?_⟩
  · rw [split]
    exact related.imp fun _ _ ⟨sublist, ascending⟩ =>
      ⟨sublist, ascending.imp fun below => UInt64.lt_iff_toNat_lt.mpr below⟩
  · rw [addedTransactions_reverse, added, List.reverse_reverse]

theorem filterTransactions_nonces_on_sample :
    ∃ result, filterTransactions sampleEffects sampleFields 1000 10 sampleGroups ⟨0, 0⟩ =
        some result ∧
      ∃ chosen, List.Forall₂ (fun chosen group => chosen.Sublist group ∧
          chosen.Pairwise fun first second =>
            sampleFields.transactionNonce first < sampleFields.transactionNonce second)
        chosen [[2, 3, 4]] ∧ addedTransactions result.1 = chosen.flatten :=
  ⟨_, sample_ran, filterTransactions_nonces (by decide) sample_ran⟩

/-- The sample adds transaction `2`, fails `3` for repeating its nonce, and adds `4`. -/
example : ((filterTransactions sampleEffects sampleFields 1000 10 sampleGroups ⟨0, 0⟩).map
      fun result => (addedTransactions result.1, result.1.ftFailed.map Prod.fst)) =
    some ([2, 4], [3]) := by
  decide +kernel

/-- Block construction adds, of each type of update, a sublist of its update instructions with
strictly increasing sequence numbers, in the order of the groups. It needs each type's group
ordered by sequence number, as `filterTransactions` expects. -/
theorem filterTransactions_sequenceNumbers {groups : List (TransactionGroup Tx Cred Upd)}
    {st : SchedulerState World}
    {result : FilteredTransactions Tx Cred Upd Summary Reason × SchedulerState World}
    (sorted : ∀ group ∈ updateGroups groups, group.Pairwise fun first second =>
      fields.updateSeqNumber first ≤ fields.updateSeqNumber second)
    (ran : filterTransactions effects fields maxSize timeout groups st = some result) :
    ∃ chosen, List.Forall₂ (fun chosen group => chosen.Sublist group ∧
        chosen.Pairwise fun first second =>
          fields.updateSeqNumber first < fields.updateSeqNumber second)
      chosen (updateGroups groups) ∧ addedUpdates result.1 = chosen.flatten := by
  obtain ⟨last, run, done, rfl⟩ := runNext_steps effects fields maxSize timeout _ ran
  have keySorted : ∀ group ∈ updateGroups groups,
      SortedKey.Sorted (sequenceKey fields) group := fun group listed =>
    (sorted group listed).imp fun below => UInt64.le_iff_toNat_le.mp below
  obtain ⟨processed, chosen, split, related, added⟩ := Transition.holds
    (SequencesChosen fields groups) (fun step => step.sequencesChosen keySorted) run
    ⟨[], [], rfl, .nil, rfl⟩
  rw [done, List.append_nil] at split
  refine ⟨chosen, ?_, ?_⟩
  · rw [split]
    exact related.imp fun _ _ ⟨sublist, ascending⟩ =>
      ⟨sublist, ascending.imp fun below => UInt64.lt_iff_toNat_lt.mpr below⟩
  · rw [addedUpdates_reverse, added, List.reverse_reverse]

theorem filterTransactions_sequenceNumbers_on_sample :
    ∃ result, filterTransactions sampleEffects sampleFields 1000 10 sampleGroups ⟨0, 0⟩ =
        some result ∧
      ∃ chosen, List.Forall₂ (fun chosen group => chosen.Sublist group ∧
          chosen.Pairwise fun first second =>
            sampleFields.updateSeqNumber first < sampleFields.updateSeqNumber second)
        chosen [[1, 9, 10]] ∧ addedUpdates result.1 = chosen.flatten :=
  ⟨_, sample_ran, filterTransactions_sequenceNumbers (by decide) sample_ran⟩

end Selection

end Concordium.Scheduler
