import Concordium.Afgjort.ABBA
import Concordium.Afgjort.CSS.CoreSet

/-!
Contract: the lottery tickets of ABBA. In every node a run of `stepABBA` reaches, every party
with an input in a phase, in its CSS state once the phase began and among the messages buffered
before, has a ticket recorded for the phase; so `handleCoreSet` on the core set CSS chose for a
phase, and the firing of every pending `HandleCoreSet`, never stops for want of a ticket.

Owns:
- `PhaseState.Ticketed`, `PhaseState.Nominated`, `PhaseState.CoreChosen` and
  `PhaseState.CoreWithinInputs`: what a phase holds of a party and of its core set;
- `Holds exempt kept st log`: the parties with inputs have tickets, but those `exempt` names;
  those `kept` names have tickets; every core set CSS chose lists parties with inputs; and every
  `HandleCoreSet` the log delays is of the core set CSS chose in its phase. `exempt` is the input
  `handleJustified` records before its ticket, and `kept` the buffered inputs `beginPhase`
  replays;
- one triple per handler, from `Holds` to `Holds`, and the step and run lemmas
  (`stepABBA_holds`, `ABBAReachable.holds`);
- `handleCoreSet_ne_noLotteryTicket`: from a state where `Holds` holds, the core set CSS chose in
  a phase leaves a ticket to choose by (`coreSetOutcome_ne_noLotteryTicket`);
- `every_input_has_a_ticket`, what this gives in every node a run reaches.

Does not own: the handlers (`Concordium.Afgjort.ABBA`), or what CSS does to its inputs and core
set (`Concordium.Afgjort.CSS.CoreSet`).
-/

set_option autoImplicit false

namespace Concordium.Afgjort.ABBA

open Concordium.Afgjort.CSS Concordium.Afgjort.WMVBA Emit

variable {sig value proof : Type} [LinearOrder value]

/-! ## Phase states -/

@[simp] theorem phaseState_setPhaseState (st : ABBAState sig value proof) (p q : Phase)
    (ps : PhaseState sig value proof) :
    (st.setPhaseState p ps).phaseState q = if q = p then ps else st.phaseState q := by
  unfold ABBAState.setPhaseState ABBAState.phaseState
  by_cases same : q = p
  · subst same
    simp
  · simp [same]

namespace PhaseState

/-- The party has a ticket recorded for the phase. -/
def Ticketed (ps : PhaseState sig value proof) (party : Nat) : Prop :=
  ∃ v, toLex (v, party) ∈ ps.lotteryTickets.keys

/-- The phase holds an input of the party: in its CSS state once it began, buffered before. -/
def Nominated (ps : PhaseState sig value proof) (party : Nat) : Prop :=
  match ps.phaseCSSState with
  | .inl (_, msgs) => ∃ c signature, (party, CSSMessage.input c, signature) ∈ msgs
  | .inr css => ∃ c, party ∈ (css.input c).keys

/-- The phase began, and its CSS chose the core set `cs`. -/
def CoreChosen (ps : PhaseState sig value proof) (cs : NominationSet) : Prop :=
  ∃ css, ps.phaseCSSState = .inr css ∧ css.core = some cs

/-- Once the phase began, the core set its CSS chose lists parties with inputs. -/
def CoreWithinInputs (ps : PhaseState sig value proof) : Prop :=
  ∀ css, ps.phaseCSSState = .inr css → CoreOfInputs css

/-- A phase that has not begun has chosen no core set. -/
theorem not_coreChosen_of_buffered {ps : PhaseState sig value proof}
    {justif : Option (Option Bool)} {msgs : List (Nat × CSSMessage × sig)}
    (buffered : ps.phaseCSSState = .inl (justif, msgs)) (cs : NominationSet) : ¬ps.CoreChosen cs := by
  rintro ⟨css, set, -⟩
  rw [buffered] at set
  cases set

end PhaseState

/-! ## The invariant -/

/-- What every handler keeps, with the inputs `exempt` names still to get their tickets, and the
tickets `kept` names to keep. -/
structure Holds (exempt kept : Set (Phase × Nat)) (st : ABBAState sig value proof)
    (log : List (ABBAOutputEvent proof)) : Prop where
  ticketed : ∀ phase party, (st.phaseState phase).Nominated party → (phase, party) ∉ exempt →
    (st.phaseState phase).Ticketed party
  kept : ∀ entry ∈ kept, (st.phaseState entry.1).Ticketed entry.2
  coreWithinInputs : ∀ phase, (st.phaseState phase).CoreWithinInputs
  announced : ∀ phase cs,
    DelayedABBAAction.HandleCoreSet phase cs ∈ log.filterMap ABBAOutputEvent.delayed →
      (st.phaseState phase).CoreChosen cs

variable {exempt kept : Set (Phase × Nat)} {st : ABBAState sig value proof}
  {log : List (ABBAOutputEvent proof)}

theorem Holds.mono {exempt' kept' : Set (Phase × Nat)} (holds : Holds exempt kept st log)
    (more : exempt ⊆ exempt') (fewer : kept' ⊆ kept) : Holds exempt' kept' st log where
  ticketed phase party nominated outside :=
    holds.ticketed phase party nominated fun inside => outside (more inside)
  kept entry listed := holds.kept entry (fewer listed)
  coreWithinInputs := holds.coreWithinInputs
  announced := holds.announced

/-- A change of what the handlers read of the state other than the phases. -/
theorem Holds.of_phaseStates {st' : ABBAState sig value proof} (holds : Holds exempt kept st log)
    (same : st'.phaseStates = st.phaseStates) : Holds exempt kept st' log := by
  have phases : st'.phaseState = st.phaseState := by
    funext p
    rw [ABBAState.phaseState, ABBAState.phaseState, same]
  exact ⟨phases ▸ holds.ticketed, phases ▸ holds.kept, phases ▸ holds.coreWithinInputs,
    phases ▸ holds.announced⟩

/-- An event that delays no core set, or the core set CSS chose in its phase. -/
theorem Holds.tell (holds : Holds exempt kept st log) (event : ABBAOutputEvent proof)
    (chosen : ∀ phase cs, event.delayed = some (.HandleCoreSet phase cs) →
      (st.phaseState phase).CoreChosen cs) :
    Holds exempt kept st (log ++ [event]) := by
  refine ⟨holds.ticketed, holds.kept, holds.coreWithinInputs, fun phase cs listed => ?_⟩
  rw [List.filterMap_append, List.mem_append] at listed
  rcases listed with earlier | now
  · exact holds.announced phase cs earlier
  · cases delayed : event.delayed with
    | none => simp [delayed] at now
    | some action =>
      simp only [List.filterMap_cons, delayed, List.filterMap_nil, List.mem_singleton] at now
      exact chosen phase cs (now ▸ delayed)

/-- A new state of one phase, that keeps the tickets and the core set CSS chose there, with its
parties' inputs ticketed but those `exempt'` names, which may differ from `exempt` on that phase
only. -/
theorem Holds.setPhaseState {exempt' : Set (Phase × Nat)} (holds : Holds exempt kept st log)
    (p : Phase) (ps : PhaseState sig value proof)
    (exempts : ∀ q party, q ≠ p → (q, party) ∈ exempt → (q, party) ∈ exempt')
    (ticketed : ∀ party, ps.Nominated party → (p, party) ∉ exempt' → ps.Ticketed party)
    (tickets : ∀ party, (st.phaseState p).Ticketed party → ps.Ticketed party)
    (within : ps.CoreWithinInputs)
    (chosen : ∀ cs, (st.phaseState p).CoreChosen cs → ps.CoreChosen cs) :
    Holds exempt' kept (st.setPhaseState p ps) log where
  ticketed q party nominated outside := by
    by_cases same : q = p
    · subst same
      simp only [phaseState_setPhaseState, if_pos] at nominated ⊢
      exact ticketed party nominated outside
    · simp only [phaseState_setPhaseState, if_neg same] at nominated ⊢
      exact holds.ticketed q party nominated fun inside => outside (exempts q party same inside)
  kept entry listed := by
    by_cases same : entry.1 = p
    · simp only [phaseState_setPhaseState, if_pos same]
      exact tickets entry.2 (same ▸ holds.kept entry listed)
    · simp only [phaseState_setPhaseState, if_neg same]
      exact holds.kept entry listed
  coreWithinInputs q := by
    by_cases same : q = p
    · simp only [phaseState_setPhaseState, if_pos same]
      exact within
    · simp only [phaseState_setPhaseState, if_neg same]
      exact holds.coreWithinInputs q
  announced q cs listed := by
    by_cases same : q = p
    · simp only [phaseState_setPhaseState, if_pos same]
      exact chosen cs (same ▸ holds.announced q cs listed)
    · simp only [phaseState_setPhaseState, if_neg same]
      exact holds.announced q cs listed

/-- A new state of one phase with the same tickets and CSS state. -/
theorem Holds.setPhaseState_same (holds : Holds exempt kept st log) (p : Phase)
    (ps : PhaseState sig value proof)
    (tickets : ps.lotteryTickets = (st.phaseState p).lotteryTickets)
    (css : ps.phaseCSSState = (st.phaseState p).phaseCSSState) :
    Holds exempt kept (st.setPhaseState p ps) log := by
  refine holds.setPhaseState p ps (fun _ _ _ inside => inside) (fun party nominated outside => ?_)
    (fun party ticketed => ?_) (fun css' started => ?_) fun cs chosen => ?_
  · rw [PhaseState.Nominated, css] at nominated
    rw [PhaseState.Ticketed, tickets]
    exact holds.ticketed p party nominated outside
  · rwa [PhaseState.Ticketed, tickets]
  · rw [css] at started
    exact holds.coreWithinInputs p css' started
  · rwa [PhaseState.CoreChosen, css]

theorem PhaseState.Ticketed.insert {ps : PhaseState sig value proof} {party : Nat}
    (ticketed : ps.Ticketed party) (key : value ×ₗ Nat) (ticket : Ticket value proof) :
    PhaseState.Ticketed { ps with lotteryTickets := ps.lotteryTickets.insert key ticket } party := by
  obtain ⟨v, listed⟩ := ticketed
  exact ⟨v, (AscMap.mem_keys_insert _ _ _ _).mpr (Or.inr listed)⟩

/-- Recording the ticket of the input exempt in its phase settles the exemption. -/
theorem Holds.addTicket {p : Phase} {src : Nat} (holds : Holds (insert (p, src) exempt) kept st log)
    (ticket : Ticket value proof) :
    Holds exempt kept (st.setPhaseState p { st.phaseState p with
      lotteryTickets := (st.phaseState p).lotteryTickets.insert (toLex (ticket.ticketValue, src))
        ticket }) log := by
  refine holds.setPhaseState p _ (fun q _ other inside => ?_) (fun party nominated outside => ?_)
    (fun party ticketed => ticketed.insert _ ticket) (holds.coreWithinInputs p) fun _ chosen => chosen
  · rcases Set.mem_insert_iff.mp inside with same | earlier
    · exact absurd (Prod.mk.inj same).1 other
    · exact earlier
  · by_cases sender : party = src
    · subst sender
      exact ⟨ticket.ticketValue, (AscMap.mem_keys_insert _ _ _ _).mpr (Or.inl rfl)⟩
    · have ticketed := holds.ticketed p party nominated fun inside =>
        (Set.mem_insert_iff.mp inside).elim (fun same => sender (Prod.mk.inj same).2) outside
      exact ticketed.insert _ ticket

/-- More parties whose tickets are kept. -/
theorem Holds.keep {more : Set (Phase × Nat)} (holds : Holds exempt kept st log)
    (ticketed : ∀ entry ∈ more, (st.phaseState entry.1).Ticketed entry.2) :
    Holds exempt (kept ∪ more) st log :=
  ⟨holds.ticketed, fun entry listed => listed.elim (holds.kept entry) (ticketed entry),
    holds.coreWithinInputs, holds.announced⟩

/-! ## The handlers -/

/-- The rule of `modifyPhaseState`. -/
theorem modifyPhaseState_triple {pre : ABBAState sig value proof → List (ABBAOutputEvent proof) → Prop}
    {post : Unit → ABBAState sig value proof → List (ABBAOutputEvent proof) → Prop} (p : Phase)
    (change : PhaseState sig value proof → PhaseState sig value proof)
    (establishes : ∀ st log, pre st log → post () (st.setPhaseState p (change (st.phaseState p))) log) :
    Hoare pre (modifyPhaseState p change) post :=
  (Hoare.modify _).mono establishes fun _ _ _ holds => holds

theorem pure_holds {α : Type} (result : α) :
    Hoare (Holds exempt kept) (pure result : ABBA sig value proof α) fun _ => Holds exempt kept :=
  @Hoare.pure _ _ _ (fun _ => Holds exempt kept) result

/-- The events of a CSS step are told in turn; a core set it chose is delayed for handling. -/
theorem handleCSSEvents_holds (phase : Phase) :
    ∀ events : List CSSOutputEvent,
      Hoare (fun st log => Holds exempt kept st log ∧
          ∀ cs, .SelectCoreSet cs ∈ events → (st.phaseState phase).CoreChosen cs)
        (handleCSSEvents phase events : ABBA sig value proof Unit) fun _ => Holds exempt kept
  | [] => (Hoare.pure ()).mono (fun _ _ pre => pre.1) fun _ _ _ holds => holds
  | event :: rest => by
      have later := handleCSSEvents_holds phase rest
      -- what is left to announce is part of what was
      have weaker : ∀ (st : ABBAState sig value proof) log,
          (Holds exempt kept st log ∧ ∀ cs, .SelectCoreSet cs ∈ event :: rest →
            (st.phaseState phase).CoreChosen cs) →
          Holds exempt kept st log ∧ ∀ cs, .SelectCoreSet cs ∈ rest →
            (st.phaseState phase).CoreChosen cs :=
        fun _ _ pre => ⟨pre.1, fun cs listed => pre.2 cs (List.mem_cons_of_mem event listed)⟩
      have told : ∀ told : ABBAOutputEvent proof,
          (∀ p cs, told.delayed = some (.HandleCoreSet p cs) →
            p = phase ∧ event = .SelectCoreSet cs) →
          Hoare (fun st log => Holds exempt kept st log ∧ ∀ cs, .SelectCoreSet cs ∈ event :: rest →
              (st.phaseState phase).CoreChosen cs) (tell told : ABBA sig value proof Unit)
            fun _ st log => Holds exempt kept st log ∧ ∀ cs, .SelectCoreSet cs ∈ rest →
              (st.phaseState phase).CoreChosen cs := by
        intro told announces
        refine (Hoare.tell told).mono (fun st log pre =>
          ⟨pre.1.tell told fun p cs delayed => ?_, (weaker st log pre).2⟩) fun _ _ _ holds => holds
        obtain ⟨rfl, rfl⟩ := announces p cs delayed
        exact pre.2 cs List.mem_cons_self
      cases event with
      | SendCSSMessage m =>
        rw [handleCSSEvents]
        split
        · exact Hoare.bind (told _ fun _ _ delayed => by cases delayed) fun _ => later
        · exact later.mono weaker fun _ _ _ holds => holds
      | SelectCoreSet cs =>
        rw [handleCSSEvents]
        refine Hoare.bind (told _ fun _ _ delayed => ?_) fun _ => later
        cases delayed
        exact ⟨rfl, rfl⟩
      | WaitThenFinishReporting =>
        rw [handleCSSEvents]
        exact Hoare.bind (told _ fun _ _ delayed => by cases delayed) fun _ => later

/-- A CSS step of a begun phase, from the state `recorded` the step handles its message in: its
inputs are those of the phase, and perhaps parties with tickets or exempt. -/
theorem Holds.cssStep (holds : Holds exempt kept st log) {phase : Phase}
    {css recorded : CSSState sig} {result : CSSState sig × List CSSOutputEvent}
    (started : (st.phaseState phase).phaseCSSState = .inr css) (settles : Settles recorded result)
    (inputs : ∀ c party, party ∈ (recorded.input c).keys → party ∈ (css.input c).keys ∨
      (st.phaseState phase).Ticketed party ∨ (phase, party) ∈ exempt)
    (core : recorded.core = css.core) (within : CoreOfInputs css → CoreOfInputs recorded) :
    Holds exempt kept
        (st.setPhaseState phase { st.phaseState phase with phaseCSSState := .inr result.1 }) log ∧
      ∀ cs, .SelectCoreSet cs ∈ result.2 →
        ((st.setPhaseState phase { st.phaseState phase with phaseCSSState := .inr result.1 }
          ).phaseState phase).CoreChosen cs := by
  refine ⟨holds.setPhaseState phase _ (fun _ _ _ inside => inside) ?_ (fun _ ticketed => ticketed)
    ?_ ?_, fun cs selected => ?_⟩
  · rintro party ⟨c, listed⟩ outside
    rw [settles.input] at listed
    rcases inputs c party listed with earlier | ticketed | exempted
    · have nominated : (st.phaseState phase).Nominated party := by
        rw [PhaseState.Nominated, started]
        exact ⟨c, earlier⟩
      exact holds.ticketed phase party nominated outside
    · exact ticketed
    · exact absurd exempted outside
  · rintro css' ⟨⟩
    exact settles.coreOfInputs (within (holds.coreWithinInputs phase css started))
  · rintro cs ⟨css', set, chosen⟩
    rw [started] at set
    cases set
    exact ⟨result.1, rfl, settles.core cs (core ▸ chosen)⟩
  · rw [phaseState_setPhaseState, if_pos rfl]
    exact ⟨result.1, rfl, settles.selected cs selected⟩

section Lifts

variable (inst : ABBAInstance value proof)

/-- A message to a phase: buffered before it begins, handled by its CSS after. An input needs its
sender's ticket, or an exemption. -/
theorem liftCSSReceiveMessage_holds (phase : Phase) (src : Nat) (msg : CSSMessage)
    (signature : sig) :
    Hoare (fun st log => Holds exempt kept st log ∧
        ∀ c, msg = .input c → (st.phaseState phase).Ticketed src ∨ (phase, src) ∈ exempt)
      (liftCSSReceiveMessage inst phase src msg signature) fun _ => Holds exempt kept := by
  unfold liftCSSReceiveMessage
  refine Hoare.bind_get fun read => ?_
  split
  · -- before the phase begins, the message is buffered
    rename_i justif msgs buffered
    refine modifyPhaseState_triple phase _ ?_
    rintro st log ⟨rfl, holds, sender⟩
    refine holds.setPhaseState phase _ (fun _ _ _ inside => inside) ?_ (fun _ ticketed => ticketed)
      ?_ ?_
    · rintro party ⟨c, signature', listed⟩ outside
      rcases List.mem_append.mp listed with earlier | new
      · have nominated : (st.phaseState phase).Nominated party := by
          rw [PhaseState.Nominated, buffered]
          exact ⟨c, signature', earlier⟩
        exact holds.ticketed phase party nominated outside
      · simp only [List.mem_singleton, Prod.mk.injEq] at new
        obtain ⟨rfl, rfl, rfl⟩ := new
        exact (sender c rfl).resolve_right outside
    · rintro css ⟨⟩
    · exact fun cs chosen => absurd chosen (PhaseState.not_coreChosen_of_buffered buffered cs)
  · -- after, its CSS handles it
    rename_i css started
    dsimp only
    refine Hoare.bind (modifyPhaseState_triple phase _ ?_) fun _ => handleCSSEvents_holds phase _
    rintro st log ⟨rfl, holds, sender⟩
    refine holds.cssStep started (receiveCSSMessage_settles _ _ src msg signature css)
      (fun c party listed => ?_) (recordInput_core src msg signature css)
      fun within => coreOfInputs_recordInput within src msg signature
    rcases mem_keys_recordInput listed with earlier | ⟨rfl, input⟩
    · exact Or.inl earlier
    · exact Or.inr (sender c input)

/-- A message that is not an input needs no ticket. -/
theorem liftCSSReceiveMessage_holds_of_ne {phase : Phase} {src : Nat} {msg : CSSMessage}
    (signature : sig) (notInput : ∀ c, msg ≠ .input c) :
    Hoare (Holds exempt kept) (liftCSSReceiveMessage inst phase src msg signature)
      fun _ => Holds exempt kept :=
  (liftCSSReceiveMessage_holds inst phase src msg signature).mono
    (fun _ _ holds => ⟨holds, fun c input => absurd input (notInput c)⟩) fun _ _ _ holds => holds

theorem liftCSSJustifyChoice_holds (phase : Phase) (c : Bool) :
    Hoare (Holds exempt kept) (liftCSSJustifyChoice inst phase c : ABBA sig value proof Unit)
      fun _ => Holds exempt kept := by
  unfold liftCSSJustifyChoice
  refine Hoare.bind_get fun read => ?_
  split
  · -- before the phase begins, the choice is recorded
    rename_i justif msgs buffered
    refine modifyPhaseState_triple phase _ ?_
    rintro st log ⟨rfl, holds⟩
    refine holds.setPhaseState phase _ (fun _ _ _ inside => inside) ?_ (fun _ ticketed => ticketed)
      ?_ ?_
    · intro party nominated outside
      have nominated' : (st.phaseState phase).Nominated party := by
        rw [PhaseState.Nominated, buffered]
        exact nominated
      exact holds.ticketed phase party nominated' outside
    · rintro css ⟨⟩
    · exact fun cs chosen => absurd chosen (PhaseState.not_coreChosen_of_buffered buffered cs)
  · rename_i css started
    dsimp only
    refine Hoare.bind (modifyPhaseState_triple phase _ ?_) fun _ => handleCSSEvents_holds phase _
    rintro st log ⟨rfl, holds⟩
    exact holds.cssStep started (justifyChoice_settles _ _ c css)
      (fun _ _ listed => Or.inl listed) rfl id

theorem liftCSSFinishReporting_holds (phase : Phase) :
    Hoare (Holds exempt kept) (liftCSSFinishReporting phase : ABBA sig value proof Unit)
      fun _ => Holds exempt kept := by
  unfold liftCSSFinishReporting
  refine Hoare.bind_get fun read => ?_
  split
  · exact (pure_holds ()).forget_read read
  · rename_i css started
    dsimp only
    refine Hoare.bind (modifyPhaseState_triple phase _ ?_) fun _ => handleCSSEvents_holds phase _
    rintro st log ⟨rfl, holds⟩
    exact holds.cssStep started (finishReporting_settles css) (fun _ _ listed => Or.inl listed)
      rfl id

/-- A change of the state that leaves the phases as they are. -/
theorem modify_holds (change : ABBAState sig value proof → ABBAState sig value proof)
    (same : ∀ st, (change st).phaseStates = st.phaseStates) :
    Hoare (Holds exempt kept) (modify change : ABBA sig value proof Unit)
      fun _ => Holds exempt kept :=
  (Hoare.modify change).mono (fun st _ holds => holds.of_phaseStates (same st))
    fun _ _ _ holds => holds

theorem unlessCompleted_holds {a : ABBA sig value proof Unit}
    (body : Hoare (Holds exempt kept) a fun _ => Holds exempt kept) :
    Hoare (Holds exempt kept) (unlessCompleted a) fun _ => Holds exempt kept := by
  unfold unlessCompleted
  refine Hoare.bind_get fun read => ?_
  split
  · exact (pure_holds ()).forget_read read
  · exact body.forget_read read

/-- The input is exempt from its ticket from when it is recorded until the ticket is. -/
theorem handleJustified_holds (src : Nat) (phase : Phase) (ticket : Ticket value proof)
    (c : Bool) (signature : sig) :
    Hoare (Holds exempt kept) (handleJustified inst src phase ticket c signature)
      fun _ => Holds exempt kept := by
  unfold handleJustified
  have recorded : Hoare (Holds exempt kept)
      (liftCSSReceiveMessage inst phase src (.input c) signature)
      fun _ => Holds (insert (phase, src) exempt) kept :=
    (liftCSSReceiveMessage_holds inst phase src (.input c) signature).mono
      (fun _ _ holds => ⟨holds.mono (Set.subset_insert _ _) subset_rfl,
        fun _ _ => Or.inr (Set.mem_insert _ _)⟩) fun _ _ _ holds => holds
  have ticketed : Hoare (Holds (insert (phase, src) exempt) kept)
      (modifyPhaseState phase fun ps => { ps with
        lotteryTickets := ps.lotteryTickets.insert (toLex (ticket.ticketValue, src)) ticket } :
        ABBA sig value proof Unit)
      fun _ => Holds exempt kept :=
    modifyPhaseState_triple phase _ fun _ _ holds => holds.addTicket ticket
  refine Hoare.bind recorded fun _ => Hoare.bind ticketed fun _ => Hoare.bind_get fun read => ?_
  -- the weight of the parties nominating `c`, and the justification of `c` in the next phase
  have weighed : ∀ weights : Option PartySet,
      Hoare (fun st log => st = read ∧ Holds exempt kept st log)
        (modifyPhaseState phase fun pst =>
          { pst with inputWeight := Function.update pst.inputWeight c weights } :
          ABBA sig value proof Unit)
        fun _ => Holds exempt kept := fun _ =>
    modifyPhaseState_triple phase _ fun _ _ pre => pre.2.setPhaseState_same phase _ rfl rfl
  split
  · exact (pure_holds ()).forget_read read
  · dsimp only
    split_ifs
    · exact (pure_holds ()).forget_read read
    · exact Hoare.bind (weighed none) fun _ => liftCSSJustifyChoice_holds inst (phase + 1) c
    · exact weighed _

/-- CSS begins; the buffered inputs, each ticketed or exempt, are replayed with their tickets
kept. -/
theorem beginPhase_holds (phase : Phase) :
    Hoare (Holds exempt kept) (beginPhase inst phase : ABBA sig value proof Unit)
      fun _ => Holds exempt kept := by
  unfold beginPhase
  refine Hoare.bind_get fun read => ?_
  split
  · rename_i justif msgs buffered
    -- the buffered inputs without an exemption have tickets, kept while they are replayed
    let replayed : Set (Phase × Nat) := {entry | entry.1 = phase ∧
      (∃ c signature, (entry.2, CSSMessage.input c, signature) ∈ msgs) ∧ entry ∉ exempt}
    have begun : Hoare (fun st log => st = read ∧ Holds exempt kept st log)
        (setPhaseCSSState phase (.inr initialCSSState))
        fun _ => Holds exempt (kept ∪ replayed) := by
      refine modifyPhaseState_triple phase _ ?_
      rintro st log ⟨rfl, holds⟩
      have keeps : Holds exempt (kept ∪ replayed) st log :=
        holds.keep fun entry ⟨same, nominated, outside⟩ => by
          have nominated' : (st.phaseState entry.1).Nominated entry.2 := by
            rw [same, PhaseState.Nominated, buffered]
            exact nominated
          exact holds.ticketed entry.1 entry.2 nominated' outside
      refine keeps.setPhaseState phase _ (fun _ _ _ inside => inside) ?_
        (fun _ ticketed => ticketed) ?_ ?_
      · rintro party ⟨c, listed⟩
        exact absurd listed List.not_mem_nil
      · rintro css ⟨⟩ cs chosen
        simp [initialCSSState] at chosen
      · exact fun cs chosen => absurd chosen (PhaseState.not_coreChosen_of_buffered buffered cs)
    have replay : Hoare (Holds exempt (kept ∪ replayed))
        (msgs.forM fun message =>
          liftCSSReceiveMessage inst phase message.1 message.2.1 message.2.2)
        fun _ => Holds exempt kept := by
      refine (Hoare.forM _ _ msgs fun message listed => ?_).mono (fun _ _ holds => holds)
        fun _ _ _ holds => holds.mono subset_rfl Set.subset_union_left
      refine (liftCSSReceiveMessage_holds inst phase _ _ _).mono
        (fun st log holds => ⟨holds, fun c input => ?_⟩) fun _ _ _ holds => holds
      by_cases exempted : (phase, message.1) ∈ exempt
      · exact Or.inr exempted
      · refine Or.inl (holds.kept (phase, message.1) (Or.inr ⟨rfl, ⟨c, message.2.2, ?_⟩, exempted⟩))
        rw [← input]
        exact listed
    refine Hoare.bind begun fun _ => ?_
    dsimp only
    split
    · exact replay
    · exact Hoare.bind (liftCSSJustifyChoice_holds inst phase _) fun _ => replay
    · exact Hoare.bind (liftCSSJustifyChoice_holds inst phase false) fun _ =>
        Hoare.bind (liftCSSJustifyChoice_holds inst phase true) fun _ => replay
  · exact (pure_holds ()).forget_read read

/-- An event that delays nothing. -/
theorem tell_holds (event : ABBAOutputEvent proof) (quiet : event.delayed = none) :
    Hoare (Holds exempt kept) (tell event : ABBA sig value proof Unit)
      fun _ => Holds exempt kept :=
  (Hoare.tell event).mono
    (fun _ _ holds => holds.tell event fun _ _ delayed => by rw [quiet] at delayed; cases delayed)
    fun _ _ _ holds => holds

theorem receiveABBAMessage_holds (src : Nat) (message : ABBAMessage proof) (signature : sig) :
    Hoare (Holds exempt kept) (receiveABBAMessage inst src message signature)
      fun _ => Holds exempt kept := by
  cases message with
  | Justified phase c ticketProof =>
    rw [receiveABBAMessage]
    refine unlessCompleted_holds ?_
    split
    · exact pure_holds ()
    · exact handleJustified_holds inst src phase _ c signature
  | CSSSeen phase ns =>
    rw [receiveABBAMessage]
    exact unlessCompleted_holds
      (liftCSSReceiveMessage_holds_of_ne inst signature fun _ => CSSMessage.noConfusion)
  | CSSDoneReporting phase m =>
    rw [receiveABBAMessage]
    exact unlessCompleted_holds
      (liftCSSReceiveMessage_holds_of_ne inst signature fun _ => CSSMessage.noConfusion)
  | WeAreDone c =>
    rw [receiveABBAMessage]
    refine unlessCompleted_holds (Hoare.bind_get fun read => ?_)
    dsimp only
    -- an old claim, a new one that completes, a new one that does not
    split_ifs
    · exact (pure_holds ()).forget_read read
    · exact Hoare.bind ((modify_holds _ fun _ => by rfl).forget_read read) fun _ =>
        Hoare.bind (modify_holds _ fun _ => by rfl) fun _ => tell_holds _ rfl
    · exact Hoare.bind ((modify_holds _ fun _ => by rfl).forget_read read) fun _ => pure_holds ()

theorem beginABBA_holds (c : Bool) :
    Hoare (Holds exempt kept) (beginABBA inst c : ABBA sig value proof Unit)
      fun _ => Holds exempt kept := by
  unfold beginABBA
  refine unlessCompleted_holds (Hoare.bind_get fun read => ?_)
  split_ifs
  · exact (tell_holds _ rfl).forget_read read
  · exact (pure_holds ()).forget_read read

theorem justifyABBAChoice_holds (c : Bool) :
    Hoare (Holds exempt kept) (justifyABBAChoice inst c : ABBA sig value proof Unit)
      fun _ => Holds exempt kept :=
  unlessCompleted_holds (liftCSSJustifyChoice_holds inst 0 c)

/-- Grading a core set reads the state, and delays only the completion of the phase. -/
theorem handleCoreSet_holds (phase : Phase) (cs : NominationSet) :
    Hoare (Holds exempt kept) (handleCoreSet inst phase cs : ABBA sig value proof _)
      fun _ => Holds exempt kept := by
  unfold handleCoreSet
  refine Hoare.bind_get fun read => ?_
  dsimp only
  split_ifs
  · exact (pure_holds _).forget_read read
  · refine Hoare.bind_get fun read' => ?_
    split
    · exact ((pure_holds _).forget_read read).forget_read read'
    · refine Hoare.bind (((tell_holds _ rfl).forget_read read).forget_read read') fun _ => ?_
      refine Hoare.bind ((Hoare.tell _).mono (fun _ _ holds => holds.tell _ ?_)
        fun _ _ _ holds => holds) fun _ => pure_holds _
      intro _ _ delayed
      cases delayed

theorem triggerABBAAction_holds (action : DelayedABBAAction) :
    Hoare (Holds exempt kept) (triggerABBAAction inst action : ABBA sig value proof _)
      fun _ => Holds exempt kept := by
  cases action with
  | HandleCoreSet phase cs => exact handleCoreSet_holds inst phase cs
  | CSSFinishReporting phase =>
    rw [triggerABBAAction]
    exact Hoare.bind (liftCSSFinishReporting_holds phase) fun _ => pure_holds _
  | CompletePhase phase nextBit newGrade =>
    rw [triggerABBAAction]
    -- the next phase begins, whether or not we are done
    have next : Hoare (Holds exempt kept) _ fun _ => Holds exempt kept :=
      Hoare.bind (modify_holds (fun st : ABBAState sig value proof =>
          { st with currentPhase := phase + 1 }) fun _ => rfl) fun _ =>
        Hoare.bind (beginPhase_holds inst (phase + 1)) fun _ =>
          pure_holds (Except.ok () : Except HandleCoreSetError Unit)
    refine Hoare.bind_get fun read =>
      Hoare.bind ((modify_holds _ fun _ => by rfl).forget_read read) fun _ => ?_
    dsimp only
    split_ifs
    · exact Hoare.bind (tell_holds _ rfl) fun _ => next
    · exact next

section Summaries

variable [DecidableEq sig] [DecidableEq proof]

/-- The messages of a summary's phase that check are handled as if received. -/
theorem processPhaseSummary_holds (checkSig : Nat → ABBAMessage Unit → sig → Bool)
    (currentPhase : Phase) (entry : Phase × PhaseSummary sig proof) :
    Hoare (Holds exempt kept) (processPhaseSummary inst checkSig currentPhase entry)
      fun _ => Holds exempt kept := by
  unfold processPhaseSummary
  refine Hoare.bind_get fun read => ?_
  dsimp only
  split_ifs
  · exact (pure_holds _).forget_read read
  · refine Hoare.forget_read ?_ read
    -- the inputs with their tickets, then the `Seen` and `DoneReporting` messages
    refine Hoare.bind (Hoare.forM (Holds exempt kept) _ _ fun input _ =>
      handleJustified_holds inst input.1 _ input.2.1 true input.2.2) fun _ => ?_
    refine Hoare.bind (Hoare.forM (Holds exempt kept) _ _ fun input _ =>
      handleJustified_holds inst input.1 _ input.2.1 false input.2.2) fun _ => ?_
    refine Hoare.bind (Hoare.forM (Holds exempt kept) _ _ fun seens _ =>
      Hoare.forM (Holds exempt kept) _ _ fun seen _ =>
        liftCSSReceiveMessage_holds_of_ne inst seen.2 fun _ => CSSMessage.noConfusion)
      fun _ => ?_
    exact Hoare.bind (Hoare.forM (Holds exempt kept) _ _ fun report _ =>
      liftCSSReceiveMessage_holds_of_ne inst report.2.signature fun _ => CSSMessage.noConfusion)
      fun _ => pure_holds _

theorem processABBASummary_holds (summary : ABBASummary sig proof)
    (checkSig : Nat → ABBAMessage Unit → sig → Bool) :
    Hoare (Holds exempt kept) (processABBASummary inst summary checkSig)
      fun _ => Holds exempt kept := by
  unfold processABBASummary
  refine Hoare.bind_get fun read => ?_
  dsimp only
  -- the `WeAreDone` messages first, then the phases unless they complete
  have weAreDone : ∀ (b : Bool) (entries : List (Nat × sig)),
      Hoare (Holds exempt kept)
        (entries.forM fun entry => receiveABBAMessage inst entry.1 (.WeAreDone b) entry.2)
        fun _ => Holds exempt kept := fun b entries =>
    Hoare.forM (Holds exempt kept) _ entries fun entry _ =>
      receiveABBAMessage_holds inst entry.1 (.WeAreDone b) entry.2
  split_ifs
  · exact (pure_holds _).forget_read read
  · exact ((Hoare.bind (weAreDone true _) fun _ => Hoare.bind (weAreDone false _) fun _ =>
      pure_holds _).forget_read read)
  · refine Hoare.forget_read ?_ read
    refine Hoare.bind (weAreDone true _) fun _ => Hoare.bind (weAreDone false _) fun _ =>
      Hoare.bind_get fun read' => Hoare.forget_read ?_ read'
    exact Hoare.bind (Hoare.mapM (Holds exempt kept) _ _ fun entry _ =>
      processPhaseSummary_holds inst checkSig _ entry) fun _ => pure_holds _

end Summaries

end Lifts

/-! ## The lottery ticket of a core set -/

section CoreSet

variable (inst : ABBAInstance value proof)

omit [LinearOrder value] in
/-- Past the cases that grade the core set by weight, a party listed for the top choice with a
ticket gives the choice. -/
theorem coreSetOutcome_ne_noLotteryTicket (cs : NominationSet)
    (tkts : List ((value ×ₗ Nat) × Ticket value proof))
    (ticketed : ∀ p, BitSet.member p cs.nomTop = true → ∃ entry ∈ tkts, (ofLex entry.1).2 = p) :
    coreSetOutcome inst cs tkts ≠ .error .noLotteryTicket := by
  unfold coreSetOutcome
  dsimp only
  split_ifs with botNull topNull
  -- the cases that grade by weight are not errors
  any_goals intro same; cases same
  obtain ⟨p, member⟩ := BitSet.exists_member_of_null_eq_false (Bool.eq_false_iff.mpr topNull)
  obtain ⟨entry, listed, party⟩ := ticketed p member
  have chosen : csRes cs (ofLex entry.1).2 = some true := by
    rw [party, csRes, if_pos member]
  have found : true ∈ tkts.filterMap fun entry => csRes cs (ofLex entry.1).2 :=
    List.mem_filterMap.mpr ⟨entry, listed, chosen⟩
  split
  · intro same
    cases same
  · rename_i none
    rw [none] at found
    exact absurd found List.not_mem_nil

/-- From a state where `Holds` holds without exemption, `handleCoreSet` on the core set CSS chose
in a phase finds a ticket. -/
theorem handleCoreSet_ne_noLotteryTicket (holds : Holds ∅ kept st log) {phase : Phase}
    {cs : NominationSet} (chosen : (st.phaseState phase).CoreChosen cs) :
    ((handleCoreSet inst phase cs).run st).1 ≠ .error .noLotteryTicket := by
  obtain ⟨css, started, core⟩ := chosen
  -- every party listed for the top choice nominated it, so has a ticket
  have ticketed : ∀ p, BitSet.member p cs.nomTop = true →
      ∃ entry ∈ (st.phaseState phase).lotteryTickets.toAscList.reverse, (ofLex entry.1).2 = p := by
    intro p member
    have input := ((holds.coreWithinInputs phase css started) cs core p).1 member
    have nominated : (st.phaseState phase).Nominated p := by
      rw [PhaseState.Nominated, started]
      exact ⟨true, input⟩
    obtain ⟨v, listed⟩ := holds.ticketed phase p nominated (Set.notMem_empty _)
    obtain ⟨entry, found, key⟩ := List.mem_map.mp listed
    exact ⟨entry, List.mem_reverse.mpr found, by rw [key]; rfl⟩
  have outcome := coreSetOutcome_ne_noLotteryTicket inst cs _ ticketed
  unfold handleCoreSet
  rw [run_bind, run_get]
  dsimp only
  split
  · -- the wrong phase is another error
    rw [run_pure]
    intro same
    cases same
  · rw [run_bind, run_get]
    dsimp only
    split
    · rename_i e graded
      rw [graded] at outcome
      rw [run_pure]
      intro same
      exact outcome (congrArg Except.error (Except.error.inj same))
    · simp only [run_bind, run_tell, run_pure]
      intro same
      cases same

end CoreSet

/-! ## Every run -/

/-- Fewer delays announced. -/
theorem Holds.sublog {log' : List (ABBAOutputEvent proof)} (holds : Holds exempt kept st log)
    (fewer : log' ⊆ log) : Holds exempt kept st log' := by
  refine ⟨holds.ticketed, holds.kept, holds.coreWithinInputs, fun phase cs listed => ?_⟩
  obtain ⟨event, logged, delayed⟩ := List.mem_filterMap.mp listed
  exact holds.announced phase cs (List.mem_filterMap.mpr ⟨event, fewer logged, delayed⟩)

/-- A handler run from a node whose pending delays are announced. -/
theorem Holds.after {α : Type} {pending : List (ABBAOutputEvent proof)}
    {m : ABBA sig value proof α} (holds : Holds exempt kept st pending)
    (triple : Hoare (Holds exempt kept) m fun _ => Holds exempt kept) :
    Holds exempt kept (m.run st).2.1
      (pending ++ (m.run st).2.2.filter fun event => event.delayed.isSome) := by
  refine (triple st pending holds).sublog fun event listed => ?_
  rcases List.mem_append.mp listed with earlier | delay
  · exact List.mem_append_left _ earlier
  · exact List.mem_append_right _ (List.mem_of_mem_filter delay)

theorem initialABBAState_phaseState (p : Phase) :
    (initialABBAState : ABBAState sig value proof).phaseState p =
      if p = 0 then
        { (initialPhaseState : PhaseState sig value proof) with
          phaseCSSState := .inr initialCSSState }
      else initialPhaseState := by
  unfold initialABBAState ABBAState.phaseState
  by_cases zero : p = 0
  · subst zero
    simp
  · simp [zero]

theorem initial_holds : Holds ∅ ∅ (initialABBAState : ABBAState sig value proof) [] where
  ticketed phase party nominated _ := by
    -- no phase holds an input yet
    rw [initialABBAState_phaseState] at nominated ⊢
    split_ifs at nominated ⊢
    · obtain ⟨c, listed⟩ := nominated
      exact absurd listed List.not_mem_nil
    · obtain ⟨c, signature, listed⟩ := nominated
      exact absurd listed List.not_mem_nil
  kept _ listed := absurd listed (Set.notMem_empty _)
  coreWithinInputs phase css started cs chosen := by
    rw [initialABBAState_phaseState] at started
    split_ifs at started
    · cases started
      cases chosen
    · cases started
  announced _ _ listed := absurd listed List.not_mem_nil

section Machine

variable [DecidableEq sig] [DecidableEq proof] (inst : ABBAInstance value proof)

/-- The step lemma: every step keeps `Holds`, the pending delays as the log. -/
theorem stepABBA_holds {node next : ABBANode sig value proof} {input : ABBAInput sig proof}
    (holds : Holds exempt kept node.state node.pending)
    (stepped : stepABBA inst node input = some next) :
    Holds exempt kept next.state next.pending := by
  cases input with
  | beginABBA c =>
    cases Option.some.inj stepped
    exact holds.after (beginABBA_holds inst c)
  | justifyABBAChoice c =>
    cases Option.some.inj stepped
    exact holds.after (justifyABBAChoice_holds inst c)
  | receiveABBAMessage src message signature =>
    cases Option.some.inj stepped
    exact holds.after (receiveABBAMessage_holds inst src message signature)
  | processABBASummary summary checkSig =>
    cases Option.some.inj stepped
    exact holds.after (processABBASummary_holds inst summary checkSig)
  | triggerABBAAction ticks action =>
    -- the delay fired is no longer pending; the others stay announced
    rw [stepABBA] at stepped
    split_ifs at stepped
    split at stepped
    · cases Option.some.inj stepped
      exact (holds.sublog List.erase_subset).after (triggerABBAAction_holds inst action)
    · cases stepped

/-- The run lemma: `Holds` in every node a run reaches, with no exemption. -/
theorem ABBAReachable.holds {node : ABBANode sig value proof} (reachable : ABBAReachable inst node) :
    Holds ∅ ∅ node.state node.pending := by
  induction reachable with
  | initial => exact initial_holds
  | step _ stepped inductionHypothesis => exact stepABBA_holds inst inductionHypothesis stepped

end Machine

/-- In every node a run reaches, every party with an input in a phase, in its CSS state once the
phase began and buffered before, has a ticket for the phase; and `handleCoreSet`, on the core set
CSS chose in a phase or fired for a pending delay, never stops for want of a ticket. -/
theorem every_input_has_a_ticket [DecidableEq sig] [DecidableEq proof]
    (inst : ABBAInstance value proof) (node : ABBANode sig value proof)
    (reachable : ABBAReachable inst node) :
    (∀ phase css, (node.state.phaseState phase).phaseCSSState = .inr css →
      ∀ c party, party ∈ (css.input c).keys →
        ∃ v, toLex (v, party) ∈ (node.state.phaseState phase).lotteryTickets.keys) ∧
    (∀ phase justif msgs, (node.state.phaseState phase).phaseCSSState = .inl (justif, msgs) →
      ∀ party c signature, (party, CSSMessage.input c, signature) ∈ msgs →
        ∃ v, toLex (v, party) ∈ (node.state.phaseState phase).lotteryTickets.keys) ∧
    (∀ phase css cs, (node.state.phaseState phase).phaseCSSState = .inr css →
      css.core = some cs →
        ((handleCoreSet inst phase cs).run node.state).1 ≠ .error .noLotteryTicket) ∧
    (∀ ticks phase cs, .ABBADelay ticks (.HandleCoreSet phase cs) ∈ node.pending →
      ((triggerABBAAction inst (.HandleCoreSet phase cs)).run node.state).1 ≠
        .error .noLotteryTicket) := by
  have holds := reachable.holds
  refine ⟨fun phase css started c party listed => ?_,
    fun phase justif msgs buffered party c signature listed => ?_,
    fun phase css cs started core => handleCoreSet_ne_noLotteryTicket inst holds ⟨css, started, core⟩,
    fun ticks phase cs pending => ?_⟩
  · have nominated : (node.state.phaseState phase).Nominated party := by
      rw [PhaseState.Nominated, started]
      exact ⟨c, listed⟩
    exact holds.ticketed phase party nominated (Set.notMem_empty _)
  · have nominated : (node.state.phaseState phase).Nominated party := by
      rw [PhaseState.Nominated, buffered]
      exact ⟨c, signature, listed⟩
    exact holds.ticketed phase party nominated (Set.notMem_empty _)
  · -- a pending delay is of the core set CSS chose
    have chosen := holds.announced phase cs (List.mem_filterMap.mpr ⟨_, pending, rfl⟩)
    exact handleCoreSet_ne_noLotteryTicket inst holds chosen

/-- One party of weight `1`, every ticket proof verified and of value `0`. -/
def soleInstance : ABBAInstance Nat Unit :=
  ⟨1, 0, fun _ => 1, 0, fun _ _ _ => true, fun _ _ _ => 0, fun _ => ()⟩

/-- The initial node once party `0`'s input `true` for phase `0` has arrived. -/
def afterSoleInput : ABBANode Unit Nat Unit :=
  initialABBANode.after (receiveABBAMessage soleInstance 0 (.Justified 0 true ()) ())

/-- The CSS state of phase `0` there: party `0`'s input recorded. -/
def soleInputCSS : CSSState Unit :=
  (receiveCSSMessage soleInstance.cssInstance 0 0 (.input true) () initialCSSState).1

/-- After party `0`'s input, phase `0` has begun with that input in its CSS state, and the party
has a ticket for the phase. -/
theorem every_input_has_a_ticket_after_one_input :
    ABBAReachable soleInstance afterSoleInput ∧
      (afterSoleInput.state.phaseState 0).phaseCSSState = .inr soleInputCSS ∧
      0 ∈ (soleInputCSS.input true).keys ∧
      ∃ v, toLex (v, 0) ∈ (afterSoleInput.state.phaseState 0).lotteryTickets.keys := by
  have stepped : stepABBA soleInstance initialABBANode
      (.receiveABBAMessage 0 (.Justified 0 true ()) ()) = some afterSoleInput := rfl
  have reachable : ABBAReachable soleInstance afterSoleInput := .step .initial stepped
  have started : (afterSoleInput.state.phaseState 0).phaseCSSState = .inr soleInputCSS := rfl
  have listed : 0 ∈ (soleInputCSS.input true).keys := by decide +kernel
  exact ⟨reachable, started, listed,
    (every_input_has_a_ticket soleInstance afterSoleInput reachable).1 0 soleInputCSS started
      true 0 listed⟩

end Concordium.Afgjort.ABBA
