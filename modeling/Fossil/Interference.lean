import Fossil.Program

/-! Safety of programs that run among others.

A protocol fixes an invariant of the shared state and a preorder that bounds how
the state may move between two operations of one program. `Safe` demands that
every operation of the program keeps both, whatever the others do meanwhile, and
that its outcome satisfies a postcondition. A pool of safe programs keeps the
invariant along every schedule, with programs abandoned at any point. -/

namespace Fossil

/-- How operations of an owner change a shared state; replies may be nondeterministic. -/
structure World (Op : Type) (Resp : Op → Type) (Owner State : Type) where
  step : Owner → (op : Op) → State → Resp op → State → Prop

namespace World

variable {Op : Type} {Resp : Op → Type} {Owner State : Type}

/-- The steps that end in an allowed state. -/
def within (world : World Op Resp Owner State) (allowed : State → Prop) : World Op Resp Owner State where
  step owner op state reply after := world.step owner op state reply after ∧ allowed after

/-- An operation that is not permitted in a state may do anything there, so a
program is only safe if all its operations are permitted. -/
def guarded (world : World Op Resp Owner State) (permitted : Owner → Op → State → Prop) :
    World Op Resp Owner State where
  step owner op state reply after := permitted owner op state → world.step owner op state reply after

end World

structure Protocol (State : Type) where
  inv : State → Prop
  le : State → State → Prop
  refl : ∀ state, le state state
  trans : ∀ {first second third}, le first second → le second third → le first third

namespace Prog

variable {Op Op' : Type} {Resp : Op → Type} {Resp' : Op' → Type}
  {ε ε' α β σ Owner State : Type}

section Safety

variable (world : World Op Resp Owner State) (protocol : Protocol State) (owner : Owner)

/-- The postcondition is required in every state the environment may reach
after the last operation, so it need not be stated as a stable assertion. -/
def Safe (post : Except ε α → State → Prop) : Prog Op Resp ε α → State → Prop
  | .ret value, state => ∀ later, protocol.le state later → protocol.inv later → post (.ok value) later
  | .fail error, state =>
      ∀ later, protocol.le state later → protocol.inv later → post (.error error) later
  | .call op next, state =>
      ∀ later, protocol.le state later → protocol.inv later →
        ∀ reply after, world.step owner op later reply after →
          protocol.inv after ∧ protocol.le later after ∧ (next reply).Safe post after

end Safety

variable {world : World Op Resp Owner State} {protocol : Protocol State} {owner : Owner}

theorem Safe.later {post : Except ε α → State → Prop} {prog : Prog Op Resp ε α}
    {state later : State} (safe : prog.Safe world protocol owner post state)
    (grows : protocol.le state later) : prog.Safe world protocol owner post later := by
  cases prog with
  | ret value => exact fun final moves => safe final (protocol.trans grows moves)
  | fail error => exact fun final moves => safe final (protocol.trans grows moves)
  | call op next => exact fun final moves => safe final (protocol.trans grows moves)

/-- It suffices to be safe in the states reached once the environment has moved. -/
theorem safe_of_later {post : Except ε α → State → Prop} {prog : Prog Op Resp ε α}
    {state : State}
    (safe : ∀ later, protocol.le state later → protocol.inv later →
      prog.Safe world protocol owner post later) :
    prog.Safe world protocol owner post state := by
  cases prog with
  | ret value => exact fun later moves inv => safe later moves inv later (protocol.refl _) inv
  | fail error => exact fun later moves inv => safe later moves inv later (protocol.refl _) inv
  | call op next => exact fun later moves inv => safe later moves inv later (protocol.refl _) inv

theorem Safe.weaken {post post' : Except ε α → State → Prop} {prog : Prog Op Resp ε α}
    {state : State} (safe : prog.Safe world protocol owner post state)
    (implies : ∀ outcome later, protocol.le state later → protocol.inv later →
      post outcome later → post' outcome later) :
    prog.Safe world protocol owner post' state := by
  induction prog generalizing state with
  | ret value => exact fun later moves inv => implies _ _ moves inv (safe later moves inv)
  | fail error => exact fun later moves inv => implies _ _ moves inv (safe later moves inv)
  | call op next ih =>
      intro later moves inv reply after stepped
      obtain ⟨kept, grown, rest⟩ := safe later moves inv reply after stepped
      refine ⟨kept, grown, ih reply rest ?_⟩
      intro outcome final moved finalInv holds
      exact implies outcome final (protocol.trans moves (protocol.trans grown moved)) finalInv holds

theorem Safe.bind {post : Except ε β → State → Prop} {prog : Prog Op Resp ε α}
    {next : α → Prog Op Resp ε β} {state : State}
    (safe : prog.Safe world protocol owner
      (fun outcome later => (resume next outcome).Safe world protocol owner post later) state) :
    (prog.bind next).Safe world protocol owner post state := by
  induction prog generalizing state with
  | ret value => exact safe_of_later (fun later moves inv => safe later moves inv)
  | fail error =>
      exact safe_of_later (fun later moves inv => safe later moves inv)
  | call op rest ih =>
      intro later moves inv reply after stepped
      obtain ⟨kept, grown, tail⟩ := safe later moves inv reply after stepped
      exact ⟨kept, grown, ih reply tail⟩

/-- What a safe program does next is permitted, since otherwise it could break the protocol. -/
theorem Safe.permitted {permitted : Owner → Op → State → Prop} {post : Except ε α → State → Prop}
    {op : Op} {next : Resp op → Prog Op Resp ε α} {state : State} (reply : Resp op)
    (safe : (Prog.call op next).Safe (world.guarded permitted) protocol owner post state)
    (inv : protocol.inv state) (breakable : ∃ broken, ¬ protocol.inv broken) :
    permitted owner op state := by
  by_contra refused
  rcases breakable with ⟨broken, breaks⟩
  exact breaks (safe state (protocol.refl state) inv reply broken (fun allowed => absurd allowed refused)).1

/-- A program that is safe among others is right on its own. -/
theorem Safe.follows {post : Except ε α → State → Prop} {prog : Prog Op Resp ε α} {state : State}
    (safe : prog.Safe world protocol owner post state) (inv : protocol.inv state) :
    prog.Follows (world.step owner) (fun outcome after => post outcome after ∧ protocol.le state after) state := by
  induction prog generalizing state with
  | ret value => exact ⟨safe state (protocol.refl state) inv, protocol.refl state⟩
  | fail error => exact ⟨safe state (protocol.refl state) inv, protocol.refl state⟩
  | call op next ih =>
      intro reply after stepped
      rcases safe state (protocol.refl state) inv reply after stepped with ⟨inv', grown, rest⟩
      apply (ih reply rest inv').weaken
      exact fun outcome final ⟨holds, moves⟩ => ⟨holds, protocol.trans grown moves⟩

theorem safe_ret {post : Except ε α → State → Prop} {value : α} {state : State}
    (holds : ∀ later, protocol.le state later → protocol.inv later → post (.ok value) later) :
    (Prog.ret value : Prog Op Resp ε α).Safe world protocol owner post state := holds

theorem safe_fail {post : Except ε α → State → Prop} {error : ε} {state : State}
    (holds : ∀ later, protocol.le state later → protocol.inv later → post (.error error) later) :
    (Prog.fail error : Prog Op Resp ε α).Safe world protocol owner post state := holds

theorem safe_ofExcept {post : Except ε α → State → Prop} {result : Except ε α} {state : State}
    (holds : ∀ later, protocol.le state later → protocol.inv later → post result later) :
    (ofExcept result : Prog Op Resp ε α).Safe world protocol owner post state := by
  cases result with
  | ok value => exact holds
  | error error => exact holds

theorem Safe.attempt {post : Except ε (Except ε α) → State → Prop} {prog : Prog Op Resp ε α}
    {state : State}
    (safe : prog.Safe world protocol owner (fun outcome => post (.ok outcome)) state) :
    prog.attempt.Safe world protocol owner post state := by
  induction prog generalizing state with
  | ret value => exact safe
  | fail error => exact safe
  | call op next ih =>
      intro later moves inv reply after stepped
      obtain ⟨kept, grown, rest⟩ := safe later moves inv reply after stepped
      exact ⟨kept, grown, ih reply rest⟩

/-- A postcondition on values only; errors promise nothing. -/
def Returns (post : α → State → Prop) (outcome : Except ε α) (state : State) : Prop :=
  ∀ value, outcome = .ok value → post value state

theorem returns_ok {post : α → State → Prop} {value : α} {state : State} (holds : post value state) :
    Returns post (.ok value : Except ε α) state := by
  intro other same
  cases same
  exact holds

theorem returns_error {post : α → State → Prop} {error : ε} {state : State} :
    Returns post (.error error) state := nofun

theorem safe_fail_returns {post : α → State → Prop} {error : ε} {state : State} :
    (Prog.fail error : Prog Op Resp ε α).Safe world protocol owner (Returns post) state :=
  fun _ _ _ => returns_error

theorem safe_ret_returns {post : α → State → Prop} {value : α} {state : State}
    (holds : ∀ later, protocol.le state later → protocol.inv later → post value later) :
    (Prog.ret value : Prog Op Resp ε α).Safe world protocol owner (Returns post) state :=
  fun later moves inv => returns_ok (holds later moves inv)

/-- Sequencing, when only values matter. -/
theorem Safe.returns_bind {post : β → State → Prop} {middle : α → State → Prop}
    {prog : Prog Op Resp ε α} {next : α → Prog Op Resp ε β} {state : State}
    (first : prog.Safe world protocol owner (Returns middle) state)
    (rest : ∀ value later, protocol.le state later → protocol.inv later → middle value later →
      (next value).Safe world protocol owner (Returns post) later) :
    (prog.bind next).Safe world protocol owner (Returns post) state := by
  apply Safe.bind
  apply Safe.weaken first
  intro outcome later moves inv holds
  cases outcome with
  | ok value => exact rest value later moves inv (holds value rfl)
  | error error => exact safe_fail_returns

theorem safe_ofExcept_bind {post : β → State → Prop} {result : Except ε α}
    {next : α → Prog Op Resp ε β} {state : State}
    (rest : ∀ value, result = .ok value → (next value).Safe world protocol owner (Returns post) state) :
    ((ofExcept result).bind next).Safe world protocol owner (Returns post) state := by
  cases result with
  | ok value => exact rest value rfl
  | error error => exact safe_fail_returns

theorem safe_guard {condition : Prop} [Decidable condition] {post : α → State → Prop} {error : ε}
    {prog : Prog Op Resp ε α} {state : State}
    (rest : ¬ condition → prog.Safe world protocol owner (Returns post) state) :
    (if condition then Prog.fail error else prog).Safe world protocol owner (Returns post) state := by
  split
  · exact safe_fail_returns
  · next holds => exact rest holds

/-- A postcondition of programs that never stop with an error. -/
def Delivers (post : α → State → Prop) (outcome : Except ε α) (state : State) : Prop :=
  ∃ value, outcome = .ok value ∧ post value state

theorem safe_ret_delivers {post : α → State → Prop} {value : α} {state : State}
    (holds : ∀ later, protocol.le state later → protocol.inv later → post value later) :
    (Prog.ret value : Prog Op Resp ε α).Safe world protocol owner (Delivers post) state :=
  fun later moves inv => ⟨value, rfl, holds later moves inv⟩

theorem Safe.delivers_bind {post : β → State → Prop} {middle : α → State → Prop}
    {prog : Prog Op Resp ε α} {next : α → Prog Op Resp ε β} {state : State}
    (first : prog.Safe world protocol owner (Delivers middle) state)
    (rest : ∀ value later, protocol.le state later → protocol.inv later → middle value later →
      (next value).Safe world protocol owner (Delivers post) later) :
    (prog.bind next).Safe world protocol owner (Delivers post) state := by
  apply Safe.bind
  apply Safe.weaken first
  intro outcome later moves inv ⟨value, done, holds⟩
  subst done
  exact rest value later moves inv holds

theorem Safe.attempt_outcome {post : Except ε α → State → Prop} {prog : Prog Op Resp ε α} {state : State}
    (safe : prog.Safe world protocol owner post state) :
    prog.attempt.Safe world protocol owner (Delivers post) state :=
  Safe.attempt (safe.weaken (fun outcome _ _ _ holds => ⟨outcome, rfl, holds⟩))

theorem Safe.attempt_delivers {post : α → State → Prop} {prog : Prog Op Resp ε α} {state : State}
    (safe : prog.Safe world protocol owner (Returns post) state) :
    prog.attempt.Safe world protocol owner (Delivers (fun outcome later => Returns post outcome later))
      state := safe.attempt_outcome

theorem Safe.delivers_returns {post : α → State → Prop} {prog : Prog Op Resp ε α} {state : State}
    (safe : prog.Safe world protocol owner (Delivers post) state) :
    prog.Safe world protocol owner (Returns post) state :=
  safe.weaken (fun _ _ _ _ ⟨_, done, holds⟩ => done ▸ returns_ok holds)

/-- A postcondition of programs that stop with errors of one class only. -/
def Gives (bad : ε → Prop) (post : α → State → Prop) (outcome : Except ε α) (state : State) : Prop :=
  (∃ value, outcome = .ok value ∧ post value state) ∨ ∃ error, outcome = .error error ∧ bad error

theorem safe_ret_gives {bad : ε → Prop} {post : α → State → Prop} {value : α} {state : State}
    (holds : ∀ later, protocol.le state later → protocol.inv later → post value later) :
    (Prog.ret value : Prog Op Resp ε α).Safe world protocol owner (Gives bad post) state :=
  fun later moves inv => .inl ⟨value, rfl, holds later moves inv⟩

theorem safe_fail_gives {bad : ε → Prop} {post : α → State → Prop} {error : ε} {state : State}
    (isBad : bad error) :
    (Prog.fail error : Prog Op Resp ε α).Safe world protocol owner (Gives bad post) state :=
  fun _ _ _ => .inr ⟨error, rfl, isBad⟩

theorem Safe.gives_bind {bad : ε → Prop} {post : β → State → Prop} {middle : α → State → Prop}
    {prog : Prog Op Resp ε α} {next : α → Prog Op Resp ε β} {state : State}
    (first : prog.Safe world protocol owner (Gives bad middle) state)
    (rest : ∀ value later, protocol.le state later → protocol.inv later → middle value later →
      (next value).Safe world protocol owner (Gives bad post) later) :
    (prog.bind next).Safe world protocol owner (Gives bad post) state := by
  apply Safe.bind
  apply Safe.weaken first
  intro outcome later moves inv given
  rcases given with ⟨value, rfl, holds⟩ | ⟨error, rfl, isBad⟩
  · exact rest value later moves inv holds
  · exact safe_fail_gives isBad

theorem Safe.tolerates {bad bad' : ε → Prop} {post : α → State → Prop} {prog : Prog Op Resp ε α}
    {state : State} (safe : prog.Safe world protocol owner (Gives bad post) state)
    (worse : ∀ error, bad error → bad' error) : prog.Safe world protocol owner (Gives bad' post) state :=
  safe.weaken (fun _ _ _ _ given =>
    given.imp_right (fun ⟨error, failed, isBad⟩ => ⟨error, failed, worse error isBad⟩))

theorem Safe.delivers_gives {bad : ε → Prop} {post : α → State → Prop} {prog : Prog Op Resp ε α}
    {state : State} (safe : prog.Safe world protocol owner (Delivers post) state) :
    prog.Safe world protocol owner (Gives bad post) state :=
  safe.weaken (fun _ _ _ _ delivered => .inl delivered)

section Simulation

variable {Op Model : Type} {Resp : Op → Type} {world : World Op' Resp' Owner State}
  {step : (op : Op) → Model → Resp op → Model → Prop} {post : Except ε α → Model → Prop}
  {prog : Prog Op Resp ε α} {model : Model}

/-- A handler that keeps to `step` carries over what is known of the program.
`held` relates the model's state to the handler's own and the shared one. -/
theorem Follows.safe_handle {handler : σ → (op : Op) → Prog Op' Resp' ε' (Resp op × σ)}
    (held : Model → σ → State → Prop) (follows : prog.Follows step post model)
    (handled : ∀ op model own state, held model own state →
      (handler own op).Safe world protocol owner (Delivers (fun result later =>
        ∃ model', step op model result.1 model' ∧ held model' result.2 later)) state)
    (stable : ∀ model own state later, protocol.le state later → protocol.inv later →
      held model own state → held model own later)
    {own : σ} {state : State} (holds : held model own state) :
    (prog.handle handler own).Safe world protocol owner (Delivers (fun result later =>
      ∃ model', post result.1 model' ∧ held model' result.2 later)) state := by
  induction prog generalizing own state model with
  | ret value =>
      exact fun later moves inv => ⟨_, rfl, _, follows, stable _ _ _ _ moves inv holds⟩
  | fail error =>
      exact fun later moves inv => ⟨_, rfl, _, follows, stable _ _ _ _ moves inv holds⟩
  | call op next ih =>
      apply Safe.delivers_bind (handled op model own state holds)
      intro result later _ _ ⟨model', stepped, kept⟩
      exact ih result.1 (follows result.1 model' stepped) kept

theorem Follows.safe_lift {handler : (op : Op) → Prog Op' Resp' ε (Resp op)}
    (held : Model → State → Prop) (follows : prog.Follows step post model)
    (handled : ∀ op model state, held model state →
      (handler op).Safe world protocol owner (Delivers (fun reply later =>
        ∃ model', step op model reply model' ∧ held model' later)) state)
    (stable : ∀ model state later, protocol.le state later → protocol.inv later →
      held model state → held model later)
    {state : State} (holds : held model state) :
    (prog.lift handler).Safe world protocol owner
      (fun outcome later => ∃ model', post outcome model' ∧ held model' later) state := by
  induction prog generalizing state model with
  | ret value => exact fun later moves inv => ⟨_, follows, stable _ _ _ moves inv holds⟩
  | fail error => exact fun later moves inv => ⟨_, follows, stable _ _ _ moves inv holds⟩
  | call op next ih =>
      apply Safe.bind
      apply Safe.weaken (handled op model state holds)
      intro outcome later _ _ ⟨reply, done, model', stepped, kept⟩
      subst done
      exact ih reply (follows reply model' stepped) kept

end Simulation

section Oracle

variable {Op : Type} {Resp : Op → Type} {world : World Op' Resp' Owner State}
  {answer : (op : Op) → Resp op → Prop} {post : Except ε α → Prop} {prog : Prog Op Resp ε α}

/-- Handlers that answer as the oracle does carry over what is known under it. `held`
counts the operations that the program may still ask for. -/
theorem Meets.safe_handle {handler : σ → (op : Op) → Prog Op' Resp' ε' (Resp op × σ)} {good : Op → Prop}
    (held : Nat → σ → State → Prop) (meets : prog.Meets answer post) {count : Nat}
    (bounded : prog.AtMost count) (asks : prog.Asks good)
    (handled : ∀ op left own state, good op → held (left + 1) own state →
      (handler own op).Safe world protocol owner (Delivers (fun result later =>
        answer op result.1 ∧ held left result.2 later)) state)
    (stable : ∀ left own state later, protocol.le state later → protocol.inv later →
      held left own state → held 0 own later)
    {own : σ} {state : State} (holds : held count own state) :
    (prog.handle handler own).Safe world protocol owner (Delivers (fun result later =>
      post result.1 ∧ held 0 result.2 later)) state := by
  induction prog generalizing own state count with
  | ret value => exact fun later moves inv => ⟨_, rfl, meets, stable _ _ _ _ moves inv holds⟩
  | fail error => exact fun later moves inv => ⟨_, rfl, meets, stable _ _ _ _ moves inv holds⟩
  | call op next ih =>
      obtain ⟨fewer, rfl, rest⟩ := bounded
      apply Safe.delivers_bind (handled op fewer own state asks.1 holds)
      intro result later _ _ ⟨answered, kept⟩
      exact ih result.1 (meets result.1 () answered) (rest result.1) (asks.2 result.1) kept

theorem Meets.safe_lift {handler : (op : Op) → Prog Op' Resp' ε (Resp op)} {held : State → Prop}
    (meets : prog.Meets answer post)
    (handled : ∀ op state, held state → (handler op).Safe world protocol owner
      (Delivers (fun reply later => answer op reply ∧ held later)) state)
    (stable : ∀ state later, protocol.le state later → protocol.inv later → held state → held later)
    {state : State} (holds : held state) :
    (prog.lift handler).Safe world protocol owner
      (fun outcome later => post outcome ∧ held later) state := by
  have lifted := Follows.safe_lift (fun _ state => held state) meets
    (by
      intro op _ state kept
      apply (handled op state kept).weaken
      intro outcome later _ _ ⟨reply, done, answered, kept'⟩
      exact ⟨reply, done, (), answered, kept'⟩)
    (fun _ => stable) holds
  exact lifted.weaken (fun outcome later _ _ ⟨_, ends, kept⟩ => ⟨ends, kept⟩)

end Oracle

/-- The operation a program performs next. -/
def pending? {Op : Type} {Resp : Op → Type} : Prog Op Resp ε α → Option Op
  | .call op _ => some op
  | _ => none

theorem pending?_eq_some {Op : Type} {Resp : Op → Type} {prog : Prog Op Resp ε α} {op : Op}
    (pending : prog.pending? = some op) : ∃ next, prog = .call op next := by
  cases prog with
  | ret value => cases pending
  | fail error => cases pending
  | call other next =>
      cases pending
      exact ⟨next, rfl⟩

/-- Carry out the next operations of a program one after the other. -/
def advance {Op : Type} {Resp : Op → Type} (perform : State → (op : Op) → Resp op × State) :
    Nat → State → Prog Op Resp ε α → State × Prog Op Resp ε α
  | 0, state, prog => (state, prog)
  | steps + 1, state, .call op next =>
      advance perform steps (perform state op).2 (next (perform state op).1)
  | _ + 1, state, prog => (state, prog)

/-- How a finished program has ended. -/
def outcome? {Op : Type} {Resp : Op → Type} : Prog Op Resp ε α → Option (Except ε α)
  | .ret value => some (.ok value)
  | .fail error => some (.error error)
  | .call _ _ => none

theorem outcome?_eq_some {Op : Type} {Resp : Op → Type} {prog : Prog Op Resp ε α} {outcome : Except ε α}
    (done : prog.outcome? = some outcome) : prog = .ofExcept outcome := by
  cases prog with
  | ret value =>
      cases done
      rfl
  | fail error =>
      cases done
      rfl
  | call op next => cases done

end Prog

/-- One call in progress: what was asked, and what is left to run. -/
structure Task (Call : Type) (Out : Call → Type) (Op : Type) (Resp : Op → Type) (ε : Type) where
  call : Call
  prog : Prog Op Resp ε (Out call)

structure Pool (Call : Type) (Out : Call → Type) (Op : Type) (Resp : Op → Type) (ε State : Type) where
  state : State
  tasks : List (Task Call Out Op Resp ε)

namespace Pool

variable {Call : Type} {Out : Call → Type} {Op : Type} {Resp : Op → Type} {ε State : Type}

section Steps

variable (world : World Op Resp Call State) (body : (call : Call) → Prog Op Resp ε (Out call))
  (enabled : Pool Call Out Op Resp ε State → Call → Prop)

/-- A schedule may start an enabled call, perform the next operation of any
unfinished task, or abandon any task for good. -/
inductive Step : Pool Call Out Op Resp ε State → Pool Call Out Op Resp ε State → Prop where
  | start {pool} (call : Call) (allowed : enabled pool call) :
      Step pool ⟨pool.state, pool.tasks ++ [⟨call, body call⟩]⟩
  | run {pool} (index : Nat) (call : Call) (op : Op) (next : Resp op → Prog Op Resp ε (Out call))
      (reply : Resp op) (after : State)
      (found : pool.tasks[index]? = some ⟨call, .call op next⟩)
      (stepped : world.step call op pool.state reply after) :
      Step pool ⟨after, pool.tasks.set index ⟨call, next reply⟩⟩
  | abandon {pool} (index : Nat) : Step pool ⟨pool.state, pool.tasks.eraseIdx index⟩

inductive Reachable (initial : State) : Pool Call Out Op Resp ε State → Prop where
  | start : Reachable initial ⟨initial, []⟩
  | step {pool next} (reached : Reachable initial pool) (stepped : Step world body enabled pool next) :
      Reachable initial next

end Steps

variable {world : World Op Resp Call State} {body : (call : Call) → Prog Op Resp ε (Out call)}
  {enabled : Pool Call Out Op Resp ε State → Call → Prop} {protocol : Protocol State}
  {post : (call : Call) → Except ε (Out call) → State → Prop}

def Sound (world : World Op Resp Call State) (protocol : Protocol State)
    (post : (call : Call) → Except ε (Out call) → State → Prop)
    (pool : Pool Call Out Op Resp ε State) : Prop :=
  protocol.inv pool.state ∧
    ∀ task ∈ pool.tasks, task.prog.Safe world protocol task.call (post task.call) pool.state

theorem Sound.step
    (starts : ∀ pool call, enabled pool call → Sound world protocol post pool →
      (body call).Safe world protocol call (post call) pool.state)
    {pool next : Pool Call Out Op Resp ε State} (sound : Sound world protocol post pool)
    (stepped : Step world body enabled pool next) : Sound world protocol post next := by
  obtain ⟨inv, safe⟩ := sound
  cases stepped with
  | start call allowed =>
      refine ⟨inv, ?_⟩
      intro task member
      rcases List.mem_append.mp member with old | new
      · exact safe task old
      · rw [List.mem_singleton] at new
        subst new
        exact starts pool call allowed ⟨inv, safe⟩
  | run index call op next reply after found stepped =>
      have current := safe _ (List.mem_of_getElem? found)
      obtain ⟨kept, grown, rest⟩ :=
        current pool.state (protocol.refl _) inv reply after stepped
      refine ⟨kept, ?_⟩
      intro task member
      rcases List.mem_or_eq_of_mem_set member with old | rfl
      · exact (safe task old).later grown
      · exact rest
  | abandon index =>
      exact ⟨inv, fun task member => safe task (List.mem_of_mem_eraseIdx member)⟩

/-- Schedules carry over to a world with more steps. -/
theorem Reachable.mono {world' : World Op Resp Call State} {initial : State}
    (more : ∀ owner op state reply after, world.step owner op state reply after →
      world'.step owner op state reply after) {pool : Pool Call Out Op Resp ε State}
    (reached : Reachable world body enabled initial pool) : Reachable world' body enabled initial pool := by
  induction reached with
  | start => exact .start
  | step _ stepped ih =>
      refine ih.step ?_
      cases stepped with
      | start call allowed => exact .start call allowed
      | run index call op next reply after found stepped =>
          exact .run index call op next reply after found (more _ _ _ _ _ stepped)
      | abandon index => exact .abandon index

/-- A schedule that ends in an allowed state stays in allowed ones, if no step leads
back into them. -/
theorem Reachable.within {initial : State} {allowed : State → Prop}
    (back : ∀ owner op state reply after, world.step owner op state reply after → allowed after →
      allowed state) {pool : Pool Call Out Op Resp ε State}
    (reached : Reachable world body enabled initial pool) (ends : allowed pool.state) :
    Reachable (world.within allowed) body enabled initial pool := by
  induction reached with
  | start => exact .start
  | step _ stepped ih =>
      cases stepped with
      | start call permitted => exact (ih ends).step (.start call permitted)
      | run index call op next reply after found stepped =>
          exact (ih (back _ _ _ _ _ stepped ends)).step
            (.run index call op next reply after found ⟨stepped, ends⟩)
      | abandon index => exact (ih ends).step (.abandon index)

/-- One more task, carried out for some operations without interference. -/
def launch (perform : Call → State → (op : Op) → Resp op × State)
    (body : (call : Call) → Prog Op Resp ε (Out call)) (pool : Pool Call Out Op Resp ε State) (call : Call)
    (steps : Nat) : Pool Call Out Op Resp ε State :=
  let advanced := (body call).advance (perform call) steps pool.state
  ⟨advanced.1, pool.tasks ++ [⟨call, advanced.2⟩]⟩

theorem mem_launch {perform : Call → State → (op : Op) → Resp op × State}
    {body : (call : Call) → Prog Op Resp ε (Out call)} {pool : Pool Call Out Op Resp ε State}
    {task : Task Call Out Op Resp ε} (member : task ∈ pool.tasks) (call : Call) (steps : Nat) :
    task ∈ (pool.launch perform body call steps).tasks := List.mem_append_left _ member

/-- The newest task has finished. -/
theorem launch_finished {perform : Call → State → (op : Op) → Resp op × State}
    {body : (call : Call) → Prog Op Resp ε (Out call)} {pool : Pool Call Out Op Resp ε State} {call : Call}
    {steps : Nat} {outcome : Except ε (Out call)}
    (done : ((body call).advance (perform call) steps pool.state).2.outcome? = some outcome) :
    (⟨call, .ofExcept outcome⟩ : Task Call Out Op Resp ε) ∈ (pool.launch perform body call steps).tasks := by
  rw [← Prog.outcome?_eq_some done]
  exact List.mem_append_right _ (List.mem_singleton.mpr rfl)

/-- What the newest task is about to do. -/
theorem launch_pending {perform : Call → State → (op : Op) → Resp op × State}
    {body : (call : Call) → Prog Op Resp ε (Out call)} {pool : Pool Call Out Op Resp ε State} {call : Call}
    {steps : Nat} {β : Type} {view : Op → Option β} {seen : β}
    (last : ((pool.launch perform body call steps).tasks.map (fun task =>
      task.prog.pending?.bind view)).getLast? = some (some seen)) :
    ∃ op next, view op = some seen ∧
      (⟨call, .call op next⟩ : Task Call Out Op Resp ε) ∈ (pool.launch perform body call steps).tasks := by
  unfold launch at last ⊢
  rw [List.map_append, List.map_singleton, List.getLast?_concat] at last
  rcases Option.bind_eq_some_iff.mp (Option.some.inj last) with ⟨op, pending, sees⟩
  rcases Prog.pending?_eq_some pending with ⟨next, isCall⟩
  exact ⟨op, next, sees, List.mem_append_right _ (List.mem_singleton.mpr (by rw [← isCall]))⟩

theorem Reachable.advance {initial : State} {perform : Call → State → (op : Op) → Resp op × State}
    (lawful : ∀ owner state op, world.step owner op state (perform owner state op).1
      (perform owner state op).2) {call : Call} {prog : Prog Op Resp ε (Out call)} {state : State}
    {tasks : List (Task Call Out Op Resp ε)}
    (reached : Reachable world body enabled initial ⟨state, tasks ++ [⟨call, prog⟩]⟩) (steps : Nat) :
    Reachable world body enabled initial ⟨(prog.advance (perform call) steps state).1,
      tasks ++ [⟨call, (prog.advance (perform call) steps state).2⟩]⟩ := by
  induction steps generalizing prog state with
  | zero => exact reached
  | succ steps ih =>
      cases prog with
      | ret value => exact reached
      | fail error => exact reached
      | call op next =>
          apply ih
          have stepped := reached.step (.run tasks.length call op next _ _ (by simp) (lawful call state op))
          simpa using stepped

theorem Reachable.launch {initial : State} {perform : Call → State → (op : Op) → Resp op × State}
    (lawful : ∀ owner state op, world.step owner op state (perform owner state op).1
      (perform owner state op).2) {pool : Pool Call Out Op Resp ε State}
    (reached : Reachable world body enabled initial pool) {call : Call} (allowed : enabled pool call)
    (steps : Nat) : Reachable world body enabled initial (pool.launch perform body call steps) :=
  Reachable.advance lawful (reached.step (.start call allowed)) steps

/-- The invariant rule: a sound initial state and safe calls give a sound pool
in every reachable state, under every schedule. -/
theorem Reachable.sound {initial : State}
    (starts : ∀ pool call, enabled pool call → Sound world protocol post pool →
      (body call).Safe world protocol call (post call) pool.state)
    (initially : protocol.inv initial) {pool : Pool Call Out Op Resp ε State}
    (reached : Reachable world body enabled initial pool) : Sound world protocol post pool := by
  induction reached with
  | start => exact ⟨initially, by simp⟩
  | step _ stepped ih => exact ih.step starts stepped

/-- The postcondition of a finished task holds in the state reached. -/
theorem Sound.finished {pool : Pool Call Out Op Resp ε State}
    (sound : Sound world protocol post pool) {call : Call} {value : Out call}
    (done : (⟨call, .ret value⟩ : Task Call Out Op Resp ε) ∈ pool.tasks) :
    post call (.ok value) pool.state :=
  sound.2 _ done pool.state (protocol.refl _) sound.1

theorem Sound.failed {pool : Pool Call Out Op Resp ε State}
    (sound : Sound world protocol post pool) {call : Call} {error : ε}
    (done : (⟨call, .fail error⟩ : Task Call Out Op Resp ε) ∈ pool.tasks) :
    post call (.error error) pool.state :=
  sound.2 _ done pool.state (protocol.refl _) sound.1

end Pool

end Fossil
