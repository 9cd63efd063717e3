import Concordium.Afgjort.CSS.State

/-!
Contract: what every operation of core-set selection does to the inputs and the core set, and
what it announces, from any state: the facts about `Concordium.Afgjort.CSS` on which the phases
of ABBA rest.

Owns:
- `CoreOfInputs`: each party of the chosen core set has an input for the choice it is listed
  under;
- `Settles st (st', events)`: from `st` to `st'` the inputs do not change, a chosen core set
  stays, `CoreOfInputs` is kept, every `SelectCoreSet` of `events` names the core set of `st'`,
  and no `Input` message is sent; with `Settles.refl`, `Settles.trans`, `Settles.of_same` for a
  change of neither the inputs nor the core set, and the rules for `andThen` and `forEachStep`;
- `recordInput`: the state `receiveCSSMessage` handles a message in, its input recorded; it
  adds at most the sender's input, and keeps `CoreOfInputs`;
- one lemma per handler, up to `receiveCSSMessage_settles` (from the state with the input
  recorded), `justifyChoice_settles` and `finishReporting_settles` for the three operations.

Does not own: the handlers (`Concordium.Afgjort.CSS.State`), or the invariants that need a
reachable state (`Concordium.Afgjort.CSS.Invariants`); nothing here does.
-/

set_option autoImplicit false

namespace Concordium.Afgjort.CSS

variable {sig : Type}

/-- The parties of the chosen core set nominated the choices it lists them under. -/
def CoreOfInputs (st : CSSState sig) : Prop :=
  ∀ cs, st.core = some cs → ∀ p,
    (BitSet.member p cs.nomTop = true → p ∈ (st.input true).keys) ∧
      (BitSet.member p cs.nomBot = true → p ∈ (st.input false).keys)

/-- What an operation from `st`, ending in `result.1` with the events `result.2`, does to the
inputs and the core set, and what it announces. -/
structure Settles (st : CSSState sig) (result : CSSState sig × List CSSOutputEvent) : Prop where
  input : result.1.input = st.input
  core : ∀ cs, st.core = some cs → result.1.core = some cs
  coreOfInputs : CoreOfInputs st → CoreOfInputs result.1
  selected : ∀ cs, .SelectCoreSet cs ∈ result.2 → result.1.core = some cs
  noInput : ∀ c, .SendCSSMessage (.input c) ∉ result.2

namespace Settles

theorem refl (st : CSSState sig) : Settles st (st, []) where
  input := rfl
  core _ chosen := chosen
  coreOfInputs holds := holds
  selected _ listed := absurd listed List.not_mem_nil
  noInput _ := List.not_mem_nil

/-- One operation, then another from where it ends; the events of both. -/
theorem trans {st : CSSState sig} {first second : CSSState sig × List CSSOutputEvent}
    (settles : Settles st first) (next : Settles first.1 second) :
    Settles st (second.1, first.2 ++ second.2) where
  input := next.input.trans settles.input
  core cs chosen := next.core cs (settles.core cs chosen)
  coreOfInputs holds := next.coreOfInputs (settles.coreOfInputs holds)
  selected cs listed := by
    rcases List.mem_append.mp listed with early | late
    · exact next.core cs (settles.selected cs early)
    · exact next.selected cs late
  noInput c listed := by
    rcases List.mem_append.mp listed with early | late
    · exact settles.noInput c early
    · exact next.noInput c late

/-- A change of neither the inputs nor the core set that selects nothing and sends no input. -/
theorem of_same {st st' : CSSState sig} {events : List CSSOutputEvent}
    (input : st'.input = st.input) (core : st'.core = st.core)
    (noSelect : ∀ cs, .SelectCoreSet cs ∉ events)
    (noInput : ∀ c, .SendCSSMessage (.input c) ∉ events) :
    Settles st (st', events) where
  input := input
  core cs chosen := by rwa [core]
  coreOfInputs holds := by
    unfold CoreOfInputs
    rw [input, core]
    exact holds
  selected cs listed := absurd listed (noSelect cs)
  noInput := noInput

/-- A change of neither the inputs nor the core set before an operation. -/
theorem after_same {st0 st : CSSState sig} {result : CSSState sig × List CSSOutputEvent}
    (settles : Settles st result) (input : st.input = st0.input) (core : st.core = st0.core) :
    Settles st0 result :=
  (of_same input core (fun _ => List.not_mem_nil) fun _ => List.not_mem_nil).trans settles

/-- A change of neither the inputs nor the core set after an operation. -/
theorem then_same {st st1 st2 : CSSState sig} {events : List CSSOutputEvent}
    (settles : Settles st (st1, events)) (input : st2.input = st1.input)
    (core : st2.core = st1.core) : Settles st (st2, events) := by
  have unchanged : Settles st1 (st2, []) :=
    of_same input core (fun _ => List.not_mem_nil) fun _ => List.not_mem_nil
  simpa only [List.append_nil] using settles.trans unchanged

theorem andThen {first second : CSSState sig → CSSState sig × List CSSOutputEvent}
    {st : CSSState sig} (settles : Settles st (first st))
    (next : Settles (first st).1 (second (first st).1)) :
    Settles st (CSS.andThen first second st) :=
  settles.trans next

variable {α : Type} {action : α → CSSState sig → CSSState sig × List CSSOutputEvent}

/-- The loop rule: an action that settles from every state, for every element in turn. -/
theorem forEachStep (each : ∀ a st, Settles st (action a st)) :
    ∀ (items : List α) (st : CSSState sig), Settles st (CSS.forEachStep action items st)
  | [], st => refl st
  | a :: rest, st => (each a st).trans (forEachStep each rest (action a st).1)

end Settles

/-! ## The handlers -/

section Handlers

variable (inst : CSSInstance) (maxParty : Nat)

theorem addManySaw_settles (party : Nat) (st : CSSState sig) :
    Settles st (addManySaw inst party st) := by
  unfold addManySaw
  exact Settles.of_same rfl rfl (by split_ifs <;> simp) (by split_ifs <;> simp)

theorem finishReporting_settles (st : CSSState sig) : Settles st (finishReporting st) := by
  unfold finishReporting
  exact Settles.of_same rfl rfl (by split_ifs <;> simp) (by split_ifs <;> simp)

/-- The core set `handleDoneReporting` chooses lists only parties with inputs. -/
theorem coreOfInputs_choose (st : CSSState sig) :
    CoreOfInputs { st with
      core := some ⟨maxParty,
        if st.justified true then BitSet.fromList (st.input true).keys else BitSet.empty,
        if st.justified false then BitSet.fromList (st.input false).keys else BitSet.empty⟩ } := by
  rintro cs chosen p
  cases Option.some.inj chosen
  -- a choice that is not justified lists nobody
  have none_listed : ∀ p, BitSet.member p BitSet.empty = false := fun _ => Nat.zero_testBit _
  constructor <;> split_ifs <;> simp [BitSet.member_fromList, none_listed]

theorem handleDoneReporting_settles (party : Nat) :
    ∀ (nominations : List (Nat × Bool)) (drd : DoneReportingDetails sig) (st : CSSState sig),
      Settles st (handleDoneReporting inst maxParty party nominations drd st)
  | [], drd, st => by
      rw [handleDoneReporting]
      split
      · exact Settles.refl st
      · dsimp only
        split
        · split
          · -- the core set is chosen now, from the inputs
            rename_i unchosen
            refine ⟨rfl, fun cs chosen => ?_, fun _ => ?_, ?_, ?_⟩
            · simp [unchosen] at chosen
            · exact coreOfInputs_choose maxParty _
            · simp
            · simp
          · exact Settles.of_same rfl rfl (by simp) (by simp)
        · exact Settles.of_same rfl rfl (by simp) (by simp)
  | (s, c) :: remainder, drd, st => by
      rw [handleDoneReporting]
      split
      · exact handleDoneReporting_settles party remainder drd st
      · exact Settles.of_same rfl rfl (by simp) (by simp)

theorem recordNomination_settles (src : Nat) (c : Bool) (st : CSSState sig) :
    Settles st (recordNomination inst src c st) := by
  unfold recordNomination
  split_ifs <;> exact Settles.of_same rfl rfl (by simp) (by simp)

theorem checkManySaw_settles (src : Nat) (c : Bool) (st : CSSState sig) :
    Settles st (checkManySaw inst src c st) := by
  unfold checkManySaw
  split
  · exact Settles.refl st
  · split_ifs
    · exact addManySaw_settles inst src st
    · exact Settles.refl st

theorem justifyPending_settles (src : Nat) (c : Bool) (st : CSSState sig) :
    Settles st (justifyPending inst maxParty src c st) := by
  unfold justifyPending
  split
  · exact Settles.refl st
  · split
    · exact Settles.refl st
    · -- the waiting entries are put back first, which touches neither inputs nor core
      dsimp only
      exact (Settles.forEachStep (fun (entry : Nat × Waiting sig) st' =>
          handleDoneReporting_settles inst maxParty entry.1 entry.2.1 entry.2.2 st') _ _
        ).after_same rfl rfl

theorem justifyNomination_settles (src : Nat) (c : Bool) (st : CSSState sig) :
    Settles st (justifyNomination inst maxParty src c st) :=
  (recordNomination_settles inst src c st).andThen
    ((checkManySaw_settles inst src c _).andThen (justifyPending_settles inst maxParty src c _))

theorem justifyChoice_settles (c : Bool) (st : CSSState sig) :
    Settles st (justifyChoice inst maxParty c st) := by
  unfold justifyChoice
  dsimp only
  split
  · exact Settles.of_same rfl rfl (by simp) (by simp)
  · exact (Settles.forEachStep (justifyNomination_settles inst maxParty · c) _ _).after_same
      rfl rfl

theorem takePending_input (party s : Nat) (c : Bool) (st : CSSState sig) :
    (takePending party s c st).2.input = st.input :=
  rfl

theorem takePending_core (party s : Nat) (c : Bool) (st : CSSState sig) :
    (takePending party s c st).2.core = st.core :=
  rfl

theorem receiveSeen_settles (src : Nat) (nomination : Nat × Bool) (st : CSSState sig) :
    Settles st ((receiveSeen inst maxParty src nomination st).2.1,
      (receiveSeen inst maxParty src nomination st).2.2) := by
  unfold receiveSeen
  lift_lets
  extract_lets sp c w updated st1 checked taken handled
  -- recording who saw the nomination touches neither inputs nor core
  have recorded : Settles st (st1, []) :=
    Settles.of_same rfl rfl (fun _ => List.not_mem_nil) fun _ => List.not_mem_nil
  split_ifs
  · exact recorded
  · have checks : Settles st1 checked := by
      simp only [checked]
      split_ifs
      · exact addManySaw_settles inst sp st1
      · exact Settles.refl st1
    have handles : Settles taken.2 handled := by
      simp only [handled]
      split
      · exact Settles.refl _
      · exact handleDoneReporting_settles inst maxParty src _ _ _
    exact (checks.trans (handles.after_same (takePending_input _ _ _ _)
      (takePending_core _ _ _ _))).after_same rfl rfl
  · exact recorded

theorem receiveSeens_settles (src : Nat) :
    ∀ (nominations : List (Nat × Bool)) (st : CSSState sig),
      Settles st ((receiveSeens inst maxParty src nominations st).2.1,
        (receiveSeens inst maxParty src nominations st).2.2)
  | [], st => Settles.refl st
  | nomination :: rest, st =>
    (receiveSeen_settles inst maxParty src nomination st).trans
      (receiveSeens_settles src rest _)

/-- Adding an input keeps every input. -/
theorem mem_keys_addInput {st : CSSState sig} {src : Nat} {c c' : Bool} {signature : sig}
    {p : Nat} (listed : p ∈ (st.input c').keys) :
    p ∈ (Function.update st.input c ((st.input c).insert src signature) c').keys := by
  by_cases same : c' = c
  · subst same
    rw [Function.update_self, AscMap.mem_keys_insert]
    exact Or.inr listed
  · rwa [Function.update_of_ne same]

/-- Adding an input keeps the chosen core set within the inputs. -/
theorem coreOfInputs_addInput {st : CSSState sig} (holds : CoreOfInputs st) (src : Nat)
    (c : Bool) (signature : sig) :
    CoreOfInputs { st with
      input := Function.update st.input c ((st.input c).insert src signature) } := by
  intro cs chosen p
  obtain ⟨top, bot⟩ := holds cs chosen p
  exact ⟨fun member => mem_keys_addInput (top member),
    fun member => mem_keys_addInput (bot member)⟩

/-- `receiveCSSMessage`'s first step: the state it handles `message` in, with the input that
`message` carries recorded unless the core set is chosen. -/
def recordInput (src : Nat) (message : CSSMessage) (signature : sig) (st : CSSState sig) :
    CSSState sig :=
  if st.core.isSome then st
  else
    match message with
    | .input c => { st with input := Function.update st.input c ((st.input c).insert src signature) }
    | _ => st

theorem recordInput_core (src : Nat) (message : CSSMessage) (signature : sig)
    (st : CSSState sig) : (recordInput src message signature st).core = st.core := by
  unfold recordInput
  split
  · rfl
  · split <;> rfl

/-- Recording the input adds at most the sender's input for the message's choice. -/
theorem mem_keys_recordInput {src : Nat} {message : CSSMessage} {signature : sig}
    {st : CSSState sig} {c : Bool} {p : Nat}
    (listed : p ∈ ((recordInput src message signature st).input c).keys) :
    p ∈ (st.input c).keys ∨ (p = src ∧ message = .input c) := by
  unfold recordInput at listed
  split at listed
  · exact Or.inl listed
  · split at listed
    · rename_i choice
      dsimp only at listed
      by_cases same : c = choice
      · subst same
        rw [Function.update_self, AscMap.mem_keys_insert] at listed
        rcases listed with sender | earlier
        · exact Or.inr ⟨sender, rfl⟩
        · exact Or.inl earlier
      · rw [Function.update_of_ne same] at listed
        exact Or.inl listed
    · exact Or.inl listed

theorem coreOfInputs_recordInput {st : CSSState sig} (holds : CoreOfInputs st) (src : Nat)
    (message : CSSMessage) (signature : sig) :
    CoreOfInputs (recordInput src message signature st) := by
  unfold recordInput
  split
  · exact holds
  · split
    · exact coreOfInputs_addInput holds src _ signature
    · exact holds

theorem receiveCSSMessage_settles (src : Nat) (message : CSSMessage) (signature : sig)
    (st : CSSState sig) :
    Settles (recordInput src message signature st)
      (receiveCSSMessage inst maxParty src message signature st) := by
  unfold receiveCSSMessage recordInput
  by_cases complete : st.core.isSome = true
  · rw [if_pos complete, if_pos complete]
    exact Settles.refl st
  · rw [if_neg complete, if_neg complete]
    cases message with
    | input c =>
      -- the input is recorded; its nomination is justified when its choice is
      dsimp only
      split_ifs
      · exact justifyNomination_settles inst maxParty src c _
      · exact Settles.refl _
    | seen ns =>
      -- its nominations, then the message kept
      dsimp only
      split
      · exact receiveSeens_settles inst maxParty src _ st
      · exact (receiveSeens_settles inst maxParty src _ st).then_same rfl rfl
    | doneReporting ns => exact handleDoneReporting_settles inst maxParty src _ _ st

end Handlers

end Concordium.Afgjort.CSS
