/-!
# How actions end

An action ends with a result or with an error, and leaves a state in both
cases.  `Ends` says what is true of either ending.  The rules below follow the
combinators that actions are written with; a loop is described by what holds
after each of its items.
-/

namespace Parcels

variable {Fault State Result Item : Type}

/-- What is true of a result and the state left with it, or of an error and
the state left with that. -/
def Ends (outcome : EStateM.Result Fault State Result)
    (onResult : Result → State → Prop) (onError : Fault → State → Prop) : Prop :=
  match outcome with
  | .ok result state => onResult result state
  | .error fault state => onError fault state

/-- The state that an action leaves, however it ends. -/
def leftBy (outcome : EStateM.Result Fault State Result) : State :=
  match outcome with
  | .ok _ state => state
  | .error _ state => state

namespace Ends

variable {onResult onResult' : Result → State → Prop}
variable {onError onError' : Fault → State → Prop}

@[simp]
theorem ok_iff (result : Result) (state : State) :
    Ends (.ok result state) onResult onError ↔ onResult result state := Iff.rfl

@[simp]
theorem error_iff (fault : Fault) (state : State) :
    Ends (.error fault state) onResult onError ↔ onError fault state := Iff.rfl

instance [∀ result state, Decidable (onResult result state)]
    [∀ fault state, Decidable (onError fault state)]
    (outcome : EStateM.Result Fault State Result) :
    Decidable (Ends outcome onResult onError) :=
  match outcome with
  | .ok result state => inferInstanceAs (Decidable (onResult result state))
  | .error fault state => inferInstanceAs (Decidable (onError fault state))

theorem leftBy_iff {outcome : EStateM.Result Fault State Result}
    {holds : State → Prop} :
    Ends outcome (fun _ => holds) (fun _ => holds) ↔ holds (leftBy outcome) := by
  cases outcome <;> exact Iff.rfl

theorem exists_ok {outcome : EStateM.Result Fault State Result}
    (hends : Ends outcome onResult fun _ _ => False) :
    ∃ result state, outcome = .ok result state ∧ onResult result state := by
  cases outcome with
  | ok result state => exact ⟨result, state, rfl, hends⟩
  | error fault state => exact hends.elim

theorem exists_error {outcome : EStateM.Result Fault State Result}
    (hends : Ends outcome (fun _ _ => False) onError) :
    ∃ fault state, outcome = .error fault state ∧ onError fault state := by
  cases outcome with
  | ok result state => exact hends.elim
  | error fault state => exact ⟨fault, state, rfl, hends⟩

theorem of_eq_ok {outcome : EStateM.Result Fault State Result} {result : Result}
    {state : State} (hends : Ends outcome onResult onError)
    (hrun : outcome = .ok result state) : onResult result state := by
  rw [hrun] at hends
  exact hends

/-- An action passes just when a condition holds, if it brings the condition
about or fails for want of it. -/
theorem exists_ok_iff {outcome : EStateM.Result Fault State Unit}
    {onResult : Unit → State → Prop} {condition : Prop}
    (hends : Ends outcome onResult fun _ _ => ¬ condition)
    (hresult : ∀ state, onResult () state → condition) :
    (∃ state, outcome = .ok () state) ↔ condition := by
  cases outcome with
  | ok _ state => exact iff_of_true ⟨state, rfl⟩ (hresult state hends)
  | error fault state => exact iff_of_false (by simp) hends

theorem of_ok {outcome : EStateM.Result Fault State Result}
    (hok : ∀ result state, outcome = .ok result state → onResult result state) :
    Ends outcome onResult fun _ _ => True := by
  cases outcome with
  | ok result state => exact hok result state rfl
  | error fault state => trivial

theorem mono {outcome : EStateM.Result Fault State Result}
    (hends : Ends outcome onResult onError)
    (hresult : ∀ result state, onResult result state → onResult' result state)
    (herror : ∀ fault state, onError fault state → onError' fault state) :
    Ends outcome onResult' onError' := by
  cases outcome with
  | ok result state => exact hresult result state hends
  | error fault state => exact herror fault state hends

theorem and {outcome : EStateM.Result Fault State Result}
    (hfirst : Ends outcome onResult onError) (hsecond : Ends outcome onResult' onError') :
    Ends outcome (fun result state => onResult result state ∧ onResult' result state)
      (fun fault state => onError fault state ∧ onError' fault state) := by
  cases outcome with
  | ok result state => exact ⟨hfirst, hsecond⟩
  | error fault state => exact ⟨hfirst, hsecond⟩

/-- What is said of results may be weakened. -/
theorem imp {outcome : EStateM.Result Fault State Result}
    (hends : Ends outcome onResult onError)
    (hresult : ∀ result state, onResult result state → onResult' result state) :
    Ends outcome onResult' onError :=
  hends.mono hresult fun _ _ => id

theorem both {outcome : EStateM.Result Fault State Result}
    (hfirst : Ends outcome onResult fun _ _ => True)
    (hsecond : Ends outcome onResult' fun _ _ => True) :
    Ends outcome (fun result state => onResult result state ∧ onResult' result state)
      fun _ _ => True :=
  (hfirst.and hsecond).mono (fun _ _ => id) fun _ _ _ => trivial

/-- The second action runs only on a result of the first. -/
theorem bind {Middle : Type} {first : EStateM Fault State Middle}
    {second : Middle → EStateM Fault State Result} {state : State}
    (hfirst : Ends (first state)
      (fun middle between => Ends (second middle between) onResult onError) onError) :
    Ends ((first >>= second) state) onResult onError := by
  change Ends (EStateM.bind first second state) onResult onError
  unfold EStateM.bind
  cases hrun : first state with
  | ok middle between => simpa [hrun] using hfirst
  | error fault between => simpa [hrun] using hfirst

theorem bind_ok {Middle : Type} {first : EStateM Fault State Middle}
    {second : Middle → EStateM Fault State Result} {state between : State}
    {middle : Middle} (hfirst : first state = .ok middle between)
    (hsecond : Ends (second middle between) onResult onError) :
    Ends ((first >>= second) state) onResult onError := by
  apply bind
  rw [hfirst]
  exact hsecond

theorem bind_error {Middle : Type} {first : EStateM Fault State Middle}
    {second : Middle → EStateM Fault State Result} {state between : State}
    {fault : Fault} (hfirst : first state = .error fault between)
    (herror : onError fault between) :
    Ends ((first >>= second) state) onResult onError := by
  apply bind
  rw [hfirst]
  exact herror

theorem andThen {Middle : Type} {first : EStateM Fault State Middle}
    {second : Middle → EStateM Fault State Result} {state : State}
    {onMiddle : Middle → State → Prop}
    (hfirst : Ends (first state) onMiddle onError)
    (hsecond : ∀ middle between, onMiddle middle between →
      Ends (second middle between) onResult onError) :
    Ends ((first >>= second) state) onResult onError :=
  bind (hfirst.mono hsecond fun _ _ => id)

/-- `Invariant` speaks of the items that are done. -/
theorem forM {items : List Item} {body : Item → EStateM Fault State PUnit}
    (Invariant : List Item → State → Prop)
    (hstep : ∀ done item rest state, items = done ++ item :: rest →
      Invariant done state →
        Ends (body item state) (fun _ => Invariant (done ++ [item])) onError)
    {state : State} (hstart : Invariant [] state) :
    Ends (items.forM body state) (fun _ => Invariant items) onError := by
  suffices hrest : ∀ rest done state, items = done ++ rest →
      Invariant done state →
        Ends (rest.forM body state) (fun _ => Invariant items) onError from
    hrest items [] state rfl hstart
  intro rest
  induction rest with
  | nil =>
      intro done state hitems hdone
      rw [List.append_nil] at hitems
      subst hitems
      exact hdone
  | cons item rest ih =>
      intro done state hitems hdone
      apply andThen (hstep done item rest state hitems hdone)
      intro _ between hbetween
      exact ih (done ++ [item]) between (by simp [hitems]) hbetween

/-- `Invariant` speaks of the items that are done and the value they gave. -/
theorem foldlM {Value : Type} {items : List Item}
    {body : Value → Item → EStateM Fault State Value}
    (Invariant : List Item → Value → State → Prop)
    (hstep : ∀ done item rest value state, items = done ++ item :: rest →
      Invariant done value state →
        Ends (body value item state) (Invariant (done ++ [item])) onError)
    {value : Value} {state : State} (hstart : Invariant [] value state) :
    Ends (items.foldlM body value state) (Invariant items) onError := by
  suffices hrest : ∀ rest done value state, items = done ++ rest →
      Invariant done value state →
        Ends (rest.foldlM body value state) (Invariant items) onError from
    hrest items [] value state rfl hstart
  intro rest
  induction rest with
  | nil =>
      intro done value state hitems hdone
      rw [List.append_nil] at hitems
      subst hitems
      exact hdone
  | cons item rest ih =>
      intro done value state hitems hdone
      rw [List.foldlM_cons]
      apply andThen (hstep done item rest value state hitems hdone)
      intro next between hbetween
      exact ih (done ++ [item]) next between (by simp [hitems]) hbetween

/-- `Invariant` speaks of the items that are done and the values they gave. -/
theorem mapM {Value : Type} {items : List Item}
    {body : Item → EStateM Fault State Value}
    (Invariant : List Item → List Value → State → Prop)
    (hstep : ∀ done item rest values state, items = done ++ item :: rest →
      Invariant done values state →
        Ends (body item state)
          (fun value => Invariant (done ++ [item]) (values ++ [value])) onError)
    {state : State} (hstart : Invariant [] [] state) :
    Ends (items.mapM body state) (Invariant items) onError := by
  suffices hrest : ∀ rest done values state, items = done ++ rest →
      Invariant done values state →
        Ends (rest.mapM body state)
          (fun more => Invariant items (values ++ more)) onError from by
    simpa using hrest items [] [] state rfl hstart
  intro rest
  induction rest with
  | nil =>
      intro done values state hitems hdone
      rw [List.append_nil] at hitems
      subst hitems
      simpa [pure, EStateM.pure] using hdone
  | cons item rest ih =>
      intro done values state hitems hdone
      rw [List.mapM_cons]
      apply andThen (hstep done item rest values state hitems hdone)
      intro value between hbetween
      refine andThen (ih (done ++ [item]) (values ++ [value]) between
        (by simp [hitems]) hbetween) ?_
      intro more after hafter
      simpa [pure, EStateM.pure] using hafter

end Ends

/-- What an action does that looks at the state first. -/
theorem bind_get (second : State → EStateM Fault State Result) (state : State) :
    (get >>= second) state = second state state := rfl

section Sequence

variable {Middle : Type} {first : EStateM Fault State Middle} {state between : State}
  (second : Middle → EStateM Fault State Result)

theorem bind_of_ok {middle : Middle} (hfirst : first state = .ok middle between) :
    (first >>= second) state = second middle between := by
  change EStateM.bind first second state = _
  rw [EStateM.bind, hfirst]

theorem bind_of_error {fault : Fault} (hfirst : first state = .error fault between) :
    (first >>= second) state = .error fault between := by
  change EStateM.bind first second state = _
  rw [EStateM.bind, hfirst]

end Sequence

/-! ## Results without a state -/

section Except

variable {Fault' Middle : Type} {value : Result}

theorem ok_of_bind {first : Except Fault Middle}
    {second : Middle → Except Fault Result}
    (hbind : first >>= second = .ok value) :
    ∃ middle, first = .ok middle ∧ second middle = .ok value := by
  cases first with
  | error fault => cases hbind
  | ok middle => exact ⟨middle, rfl, hbind⟩

theorem ok_of_mapError {outcome : Except Fault Result} {wrap : Fault → Fault'}
    (hmap : outcome.mapError wrap = .ok value) : outcome = .ok value := by
  cases outcome with
  | error fault => cases hmap
  | ok result =>
      cases hmap
      rfl

theorem mapError_eq_ok_iff {outcome : Except Fault Result} {wrap : Fault → Fault'} :
    outcome.mapError wrap = .ok value ↔ outcome = .ok value := by
  refine ⟨ok_of_mapError, fun houtcome => ?_⟩
  rw [houtcome]
  rfl

end Except

end Parcels
