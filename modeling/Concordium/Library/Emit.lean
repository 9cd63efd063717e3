import Mathlib.Logic.Basic

/-!
Contract: computations that read and change a state and emit events as they go, a writer over a
state monad, with Hoare triples that speak of the state and of every event emitted so far.

Owns:
- `Emit`, its `Monad` and `MonadStateOf` instances and `tell`, with one `run` equation per
  operation (`run_pure`, `run_bind`, `run_get`, `run_set`, `run_modifyGet`, `run_modify`,
  `run_tell`), and for a read or a change followed by more (`run_get_bind`, `run_modify_bind`),
  and a loop whose passes change nothing (`run_mapM_of_steady`);
- `Hoare pre m post`: from a state and an event log satisfying `pre`, `m` returns a value and a
  state, and leaves the log with its own events after the old ones, satisfying `post`;
- the rules, one per operation (`Hoare.pure`, `Hoare.bind`, `Hoare.get`, `Hoare.bind_get` with
  `Hoare.forget_read`, `Hoare.set`, `Hoare.modify`, `Hoare.tell`, `Hoare.ite`, `Hoare.forM`,
  `Hoare.mapM`), and the consequence rule `Hoare.mono`; and `Hoare.run`, a triple read at one
  run.

Does not own: any particular state or event.
-/

set_option autoImplicit false

/-- A computation that reads and changes a state of type `σ`, emits events of type `ε` in order,
and returns an `α`. -/
def Emit (σ ε α : Type) : Type :=
  σ → α × σ × List ε

namespace Emit

variable {σ ε α β : Type}

/-- The value, the final state and the events of `m` from `state`. -/
def run (m : Emit σ ε α) (state : σ) : α × σ × List ε :=
  m state

instance : Monad (Emit σ ε) where
  pure value := fun state => (value, state, [])
  bind m k := fun state =>
    let first := m state
    let second := k first.1 first.2.1
    (second.1, second.2.1, first.2.2 ++ second.2.2)

instance : MonadStateOf σ (Emit σ ε) where
  get := fun state => (state, state, [])
  set next := fun _ => ((), next, [])
  modifyGet change := fun state => ((change state).1, (change state).2, [])

/-- Emit one event. -/
def tell (event : ε) : Emit σ ε Unit :=
  fun state => ((), state, [event])

@[simp] theorem run_pure (value : α) (state : σ) :
    (pure value : Emit σ ε α).run state = (value, state, []) := rfl

@[simp] theorem run_bind (m : Emit σ ε α) (k : α → Emit σ ε β) (state : σ) :
    (m >>= k).run state =
      (((k (m.run state).1).run (m.run state).2.1).1,
        ((k (m.run state).1).run (m.run state).2.1).2.1,
        (m.run state).2.2 ++ ((k (m.run state).1).run (m.run state).2.1).2.2) := rfl

@[simp] theorem run_get (state : σ) : (get : Emit σ ε σ).run state = (state, state, []) := rfl

@[simp] theorem run_set (next state : σ) :
    (set next : Emit σ ε Unit).run state = ((), next, []) := rfl

@[simp] theorem run_modifyGet (change : σ → α × σ) (state : σ) :
    (modifyGet change : Emit σ ε α).run state = ((change state).1, (change state).2, []) := rfl

@[simp] theorem run_modify (change : σ → σ) (state : σ) :
    (modify change : Emit σ ε PUnit).run state = ((), change state, []) := rfl

@[simp] theorem run_tell (event : ε) (state : σ) :
    (tell event : Emit σ ε Unit).run state = ((), state, [event]) := rfl

/-- Reading the state, then going on from it. -/
theorem run_get_bind (k : σ → Emit σ ε α) (state : σ) :
    ((MonadState.get : Emit σ ε σ) >>= k).run state = (k state).run state := rfl

theorem run_modify_bind (change : σ → σ) (k : PUnit → Emit σ ε α) (state : σ) :
    ((modify change : Emit σ ε PUnit) >>= k).run state = (k ()).run (change state) := rfl

/-- A loop whose every pass leaves the state as it was and emits nothing returns what each pass
returns, and leaves the state as it was. -/
theorem run_mapM_of_steady {δ γ : Type} (body : δ → Emit σ ε γ) (result : δ → γ) (state : σ)
    (items : List δ) (steady : ∀ item ∈ items, (body item).run state = (result item, state, [])) :
    (items.mapM body).run state = (items.map result, state, []) := by
  -- `mapM` is its loop with an accumulator, which holds the results so far in reverse
  suffices loop : ∀ (rest : List δ),
      (∀ item ∈ rest, (body item).run state = (result item, state, [])) →
        ∀ done, (List.mapM.loop body rest done).run state =
          (done.reverse ++ rest.map result, state, []) by
    show (List.mapM.loop body items []).run state = _
    rw [loop items steady [], List.reverse_nil, List.nil_append]
  intro rest
  induction rest with
  | nil =>
    intro _ done
    rw [List.map_nil, List.append_nil]
    rfl
  | cons item rest inductionHypothesis =>
    intro steadyAll done
    have later := inductionHypothesis
      (fun other listed => steadyAll other (List.mem_cons_of_mem item listed)) (result item :: done)
    show (body item >>= fun value => List.mapM.loop body rest (value :: done)).run state = _
    rw [run_bind, steadyAll item List.mem_cons_self]
    simp only [later, List.reverse_cons, List.append_assoc, List.map_cons, List.singleton_append,
      List.append_nil]

/-! ## Hoare triples -/

/-- From a state and a log satisfying `pre`, `m` returns a value and a state, and leaves the log
with its events after the old ones, satisfying `post`. -/
def Hoare (pre : σ → List ε → Prop) (m : Emit σ ε α) (post : α → σ → List ε → Prop) : Prop :=
  ∀ state log, pre state log →
    post (m.run state).1 (m.run state).2.1 (log ++ (m.run state).2.2)

variable {pre mid : σ → List ε → Prop} {post : α → σ → List ε → Prop}

/-- A triple read at one run from the empty log. -/
theorem Hoare.run {m : Emit σ ε α} (triple : Hoare pre m post) {state : σ}
    (holds : pre state []) : post (m.run state).1 (m.run state).2.1 (m.run state).2.2 := by
  have after := triple state [] holds
  rwa [List.nil_append] at after

theorem Hoare.mono {m : Emit σ ε α} {pre' : σ → List ε → Prop}
    {post' : α → σ → List ε → Prop} (triple : Hoare pre m post)
    (weaker : ∀ state log, pre' state log → pre state log)
    (stronger : ∀ value state log, post value state log → post' value state log) :
    Hoare pre' m post' :=
  fun state log holds => stronger _ _ _ (triple state log (weaker state log holds))

theorem Hoare.pure (value : α) : Hoare (post value) (pure value : Emit σ ε α) post := by
  intro state log holds
  rwa [run_pure, List.append_nil]

/-- The rule of sequence: what the first part ensures, for the value it returns, is what the
rest needs. -/
theorem Hoare.bind {γ : Type} {m : Emit σ ε α} {k : α → Emit σ ε γ}
    {middle : α → σ → List ε → Prop} {final : γ → σ → List ε → Prop}
    (first : Hoare pre m middle) (rest : ∀ value, Hoare (middle value) (k value) final) :
    Hoare pre (m >>= k) final := by
  intro state log holds
  have reached := rest _ _ _ (first state log holds)
  rwa [List.append_assoc] at reached

theorem Hoare.get {final : σ → σ → List ε → Prop} :
    Hoare (fun state log => final state state log) (get : Emit σ ε σ) final := by
  intro state log holds
  rwa [run_get, List.append_nil]

/-- Reading the state, then going on with what was read. -/
theorem Hoare.bind_get {k : σ → Emit σ ε α}
    (rest : ∀ read, Hoare (fun state log => state = read ∧ pre state log) (k read) post) :
    Hoare pre ((MonadState.get : Emit σ ε σ) >>= k) post := by
  intro state log holds
  exact rest state state log ⟨rfl, holds⟩

/-- A triple from any state also holds from the state just read. -/
theorem Hoare.forget_read {m : Emit σ ε α} (triple : Hoare pre m post) (read : σ) :
    Hoare (fun state log => state = read ∧ pre state log) m post :=
  triple.mono (fun _ _ holds => holds.2) fun _ _ _ holds => holds

theorem Hoare.set (next : σ) {final : Unit → σ → List ε → Prop} :
    Hoare (fun _ log => final () next log) (set next : Emit σ ε Unit) final := by
  intro state log holds
  rwa [run_set, List.append_nil]

theorem Hoare.modify (change : σ → σ) {final : Unit → σ → List ε → Prop} :
    Hoare (fun state log => final () (change state) log) (modify change : Emit σ ε Unit)
      final := by
  intro state log holds
  exact (List.append_nil log).symm ▸ holds

theorem Hoare.tell (event : ε) {final : Unit → σ → List ε → Prop} :
    Hoare (fun state log => final () state (log ++ [event])) (Emit.tell event) final := by
  intro state log holds
  exact holds

theorem Hoare.ite {c : Prop} [Decidable c] {yes no : Emit σ ε α}
    (whenYes : c → Hoare pre yes post) (whenNo : ¬c → Hoare pre no post) :
    Hoare pre (if c then yes else no) post := by
  by_cases holds : c
  · rw [if_pos holds]
    exact whenYes holds
  · rw [if_neg holds]
    exact whenNo holds

/-- The loop rule: an invariant each pass keeps holds after the whole loop. -/
theorem Hoare.forM {δ : Type} (invariant : σ → List ε → Prop) (body : δ → Emit σ ε PUnit) :
    ∀ (items : List δ), (∀ item ∈ items, Hoare invariant (body item) fun _ => invariant) →
      Hoare invariant (forM items body) fun _ => invariant
  | [], _ => by
      rw [List.forM_nil]
      exact @Hoare.pure σ ε PUnit (fun _ => invariant) PUnit.unit
  | item :: rest, keeps => by
      have first := keeps item List.mem_cons_self
      have later := Hoare.forM invariant body rest fun other listed =>
        keeps other (List.mem_cons_of_mem item listed)
      rw [List.forM_cons]
      exact Hoare.bind first fun _ => later

/-- The loop rule for `mapM`: an invariant each pass keeps, whatever the pass returns, holds
after the whole loop. -/
theorem Hoare.mapM {δ γ : Type} (invariant : σ → List ε → Prop) (body : δ → Emit σ ε γ)
    (items : List δ) (keeps : ∀ item ∈ items, Hoare invariant (body item) fun _ => invariant) :
    Hoare invariant (items.mapM body) fun _ => invariant := by
  -- `mapM` is its loop with an accumulator, which the invariant does not read
  suffices loop : ∀ (rest : List δ),
      (∀ item ∈ rest, Hoare invariant (body item) fun _ => invariant) →
        ∀ done, Hoare invariant (List.mapM.loop body rest done) fun _ => invariant from
    loop items keeps []
  intro rest
  induction rest with
  | nil =>
      intro _ done
      exact @Hoare.pure σ ε (List γ) (fun _ => invariant) done.reverse
  | cons item rest inductionHypothesis =>
      intro keepsAll done
      have first := keepsAll item List.mem_cons_self
      have later : ∀ other ∈ rest, Hoare invariant (body other) fun _ => invariant :=
        fun other listed => keepsAll other (List.mem_cons_of_mem item listed)
      exact Hoare.bind first fun value => inductionHypothesis later (value :: done)

end Emit
