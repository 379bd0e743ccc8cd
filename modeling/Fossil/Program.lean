import Mathlib.Algebra.Order.Ring.Nat
import Mathlib.Data.List.Basic

/-! Resumption programs: sequential code that gives up control at every operation.

A program is a tree of typed requests. The replies come from outside, so the
same tree serves as sequential code (`Follows`, against a stepping relation), as a
process among others (`Pool`) and as the input of a further handler. A program
may also stop with an error; `attempt` turns that error into an ordinary value. -/

namespace Fossil

inductive Prog (Op : Type) (Resp : Op → Type) (ε α : Type) where
  | ret (value : α)
  | fail (error : ε)
  | call (op : Op) (next : Resp op → Prog Op Resp ε α)

namespace Prog

variable {Op Op' : Type} {Resp : Op → Type} {Resp' : Op' → Type} {ε ε' α β γ σ : Type}

def bind (prog : Prog Op Resp ε α) (next : α → Prog Op Resp ε β) : Prog Op Resp ε β :=
  match prog with
  | .ret value => next value
  | .fail error => .fail error
  | .call op rest => .call op (fun reply => (rest reply).bind next)

instance : Monad (Prog Op Resp ε) where
  pure := .ret
  bind := Prog.bind

def ofExcept : Except ε α → Prog Op Resp ε α
  | .ok value => .ret value
  | .error error => .fail error

instance : MonadLift (Except ε) (Prog Op Resp ε) where
  monadLift := ofExcept

/-- Perform one operation and return its reply. -/
def perform (op : Op) : Prog Op Resp ε (Resp op) := .call op .ret

/-- Perform one fallible operation; an error reply stops the program. -/
def request (op : Op) (result : Resp op → Except ε α) : Prog Op Resp ε α :=
  .call op (fun reply => ofExcept (result reply))

/-- Run to completion, observing an error instead of propagating it. -/
def attempt : Prog Op Resp ε α → Prog Op Resp ε (Except ε α)
  | .ret value => .ret (.ok value)
  | .fail error => .ret (.error error)
  | .call op next => .call op (fun reply => (next reply).attempt)

/-- Interpret every operation by a program over another signature. -/
def lift (handler : (op : Op) → Prog Op' Resp' ε (Resp op)) :
    Prog Op Resp ε α → Prog Op' Resp' ε α
  | .ret value => .ret value
  | .fail error => .fail error
  | .call op next => (handler op).bind (fun reply => (next reply).lift handler)

/-- Interpretation with a state of its own. The final state is returned with
the outcome, also when the interpreted program stops with an error. -/
def handle (handler : σ → (op : Op) → Prog Op' Resp' ε' (Resp op × σ)) :
    σ → Prog Op Resp ε α → Prog Op' Resp' ε' (Except ε α × σ)
  | state, .ret value => .ret (.ok value, state)
  | state, .fail error => .ret (.error error, state)
  | state, .call op next =>
      (handler state op).bind (fun reply => handle handler reply.2 (next reply.1))

@[simp] theorem pure_eq (value : α) : (pure value : Prog Op Resp ε α) = .ret value := rfl
@[simp] theorem bind_eq (prog : Prog Op Resp ε α) (next : α → Prog Op Resp ε β) :
    prog >>= next = prog.bind next := rfl
@[simp] theorem ret_bind (value : α) (next : α → Prog Op Resp ε β) :
    (Prog.ret value).bind next = next value := rfl
@[simp] theorem fail_bind (error : ε) (next : α → Prog Op Resp ε β) :
    (Prog.fail error : Prog Op Resp ε α).bind next = .fail error := rfl
@[simp] theorem ofExcept_ok (value : α) :
    (ofExcept (.ok value) : Prog Op Resp ε α) = .ret value := rfl
@[simp] theorem ofExcept_error (error : ε) :
    (ofExcept (.error error) : Prog Op Resp ε α) = .fail error := rfl
@[simp] theorem liftM_eq (result : Except ε α) :
    (liftM result : Prog Op Resp ε α) = ofExcept result := rfl
@[simp] theorem monadLift_eq (result : Except ε α) :
    (monadLift result : Prog Op Resp ε α) = ofExcept result := rfl

theorem bind_assoc (prog : Prog Op Resp ε α) (first : α → Prog Op Resp ε β)
    (second : β → Prog Op Resp ε γ) :
    (prog.bind first).bind second = prog.bind (fun value => (first value).bind second) := by
  induction prog with
  | ret value => rfl
  | fail error => rfl
  | call op next ih =>
      simp only [bind]
      congr 1
      funext reply
      exact ih reply

theorem bind_ret (prog : Prog Op Resp ε α) : prog.bind .ret = prog := by
  induction prog with
  | ret value => rfl
  | fail error => rfl
  | call op next ih =>
      simp only [bind]
      congr 1
      funext reply
      exact ih reply

/-- What follows a stopped or finished computation inside a bind. -/
def resume (next : α → Prog Op Resp ε β) : Except ε α → Prog Op Resp ε β
  | .ok value => next value
  | .error error => .fail error

/-- Every execution that `step` allows ends as `post` says. -/
def Follows (step : (op : Op) → σ → Resp op → σ → Prop) (post : Except ε α → σ → Prop) :
    Prog Op Resp ε α → σ → Prop
  | .ret value, state => post (.ok value) state
  | .fail error, state => post (.error error) state
  | .call op next, state =>
      ∀ reply after, step op state reply after → (next reply).Follows step post after

section Follows

variable {step : (op : Op) → σ → Resp op → σ → Prop}

theorem Follows.weaken {post post' : Except ε α → σ → Prop} {prog : Prog Op Resp ε α} {state : σ}
    (follows : prog.Follows step post state)
    (implies : ∀ outcome after, post outcome after → post' outcome after) :
    prog.Follows step post' state := by
  induction prog generalizing state with
  | ret value => exact implies _ _ follows
  | fail error => exact implies _ _ follows
  | call op next ih => exact fun reply after stepped => ih reply (follows reply after stepped)

theorem follows_of_forall {post : Except ε α → σ → Prop} {prog : Prog Op Resp ε α} {state : σ}
    (holds : ∀ outcome after, post outcome after) : prog.Follows step post state := by
  induction prog generalizing state with
  | ret value => exact holds _ _
  | fail error => exact holds _ _
  | call op next ih => exact fun reply after _ => ih reply

theorem Follows.bind {post : Except ε β → σ → Prop} {prog : Prog Op Resp ε α}
    {next : α → Prog Op Resp ε β} {state : σ}
    (follows : prog.Follows step
      (fun outcome after => (resume next outcome).Follows step post after) state) :
    (prog.bind next).Follows step post state := by
  induction prog generalizing state with
  | ret value => exact follows
  | fail error => exact follows
  | call op rest ih => exact fun reply after stepped => ih reply (follows reply after stepped)

theorem follows_ofExcept {post : Except ε α → σ → Prop} {result : Except ε α} {state : σ}
    (holds : post result state) :
    (ofExcept result : Prog Op Resp ε α).Follows step post state := by
  cases result with
  | ok value => exact holds
  | error error => exact holds

theorem follows_ofExcept_bind {post : Except ε β → σ → Prop} {result : Except ε α}
    {next : α → Prog Op Resp ε β} {state : σ} (stops : ∀ error, result = .error error → post (.error error) state)
    (rest : ∀ value, result = .ok value → (next value).Follows step post state) :
    ((ofExcept result).bind next).Follows step post state := by
  cases result with
  | ok value => exact rest value rfl
  | error error => exact stops error rfl

theorem Follows.attempt {post : Except ε (Except ε α) → σ → Prop} {prog : Prog Op Resp ε α}
    {state : σ} (follows : prog.Follows step (fun outcome => post (.ok outcome)) state) :
    prog.attempt.Follows step post state := by
  induction prog generalizing state with
  | ret value => exact follows
  | fail error => exact follows
  | call op next ih => exact fun reply after stepped => ih reply (follows reply after stepped)

/-- A handler that keeps to `step` carries over what is known of the program. -/
theorem Follows.lift {τ : Type} {step' : (op : Op') → τ → Resp' op → τ → Prop}
    {post : Except ε α → σ → Prop} {handler : (op : Op) → Prog Op' Resp' ε (Resp op)}
    {prog : Prog Op Resp ε α} {state : σ} (held : σ → τ → Prop)
    (follows : prog.Follows step post state)
    (handled : ∀ op state own, held state own → (handler op).Follows step'
      (fun result own' => ∃ reply after, result = .ok reply ∧ step op state reply after ∧
        held after own') own)
    {own : τ} (holds : held state own) :
    (prog.lift handler).Follows step'
      (fun outcome own' => ∃ after, post outcome after ∧ held after own') own := by
  induction prog generalizing state own with
  | ret value => exact ⟨state, follows, holds⟩
  | fail error => exact ⟨state, follows, holds⟩
  | call op next ih =>
      apply Follows.bind
      apply Follows.weaken (handled op state own holds)
      intro result own' ⟨reply, after, done, stepped, kept⟩
      subst done
      exact ih reply (follows reply after stepped) kept

end Follows

/-- Some execution that `step` allows returns this value in this state. -/
def Reaches (step : (op : Op) → σ → Resp op → σ → Prop) :
    Prog Op Resp ε α → σ → α → σ → Prop
  | .ret result, state, value, after => result = value ∧ state = after
  | .fail _, _, _, _ => False
  | .call op next, state, value, after =>
      ∃ reply middle, step op state reply middle ∧ (next reply).Reaches step middle value after

section Reaches

variable {step ideal : (op : Op) → σ → Resp op → σ → Prop}

theorem reaches_bind {prog : Prog Op Resp ε α} {next : α → Prog Op Resp ε β} {state after : σ} {value : β} :
    (prog.bind next).Reaches step state value after ↔
      ∃ result middle, prog.Reaches step state result middle ∧ (next result).Reaches step middle value after := by
  induction prog generalizing state with
  | ret result =>
      constructor
      · exact fun reaches => ⟨result, state, ⟨rfl, rfl⟩, reaches⟩
      · rintro ⟨_, _, ⟨rfl, rfl⟩, reaches⟩
        exact reaches
  | fail error =>
      constructor
      · exact fun reaches => reaches.elim
      · exact fun ⟨_, _, reaches, _⟩ => reaches.elim
  | call op rest ih =>
      constructor
      · rintro ⟨reply, later, stepped, reaches⟩
        obtain ⟨result, middle, first, last⟩ := (ih reply).mp reaches
        exact ⟨result, middle, ⟨reply, later, stepped, first⟩, last⟩
      · rintro ⟨result, middle, ⟨reply, later, stepped, first⟩, last⟩
        exact ⟨reply, later, stepped, (ih reply).mpr ⟨result, middle, first, last⟩⟩

theorem reaches_ofExcept {result : Except ε α} {state after : σ} {value : α} :
    (ofExcept result : Prog Op Resp ε α).Reaches step state value after ↔ result = .ok value ∧ state = after := by
  cases result with
  | ok _ => simp [Reaches]
  | error _ => simp [Reaches]

theorem reaches_ofExcept_bind {result : Except ε α} {next : α → Prog Op Resp ε β} {state after : σ} {value : β} :
    ((ofExcept result).bind next).Reaches step state value after ↔
      ∃ middle, result = .ok middle ∧ (next middle).Reaches step state value after := by
  simp only [reaches_bind, reaches_ofExcept]
  constructor
  · rintro ⟨middle, _, ⟨same, rfl⟩, reaches⟩
    exact ⟨middle, same, reaches⟩
  · exact fun ⟨middle, same, reaches⟩ => ⟨middle, state, ⟨same, rfl⟩, reaches⟩

/-- What every execution satisfies, one that returns does. -/
theorem Follows.reaches {post : Except ε α → σ → Prop} {prog : Prog Op Resp ε α} {state after : σ} {value : α}
    (follows : prog.Follows step post state) (reached : prog.Reaches step state value after) :
    post (.ok value) after := by
  induction prog generalizing state with
  | ret result =>
      obtain ⟨rfl, rfl⟩ := reached
      exact follows
  | fail error => exact reached.elim
  | call op next ih =>
      obtain ⟨reply, middle, stepped, rest⟩ := reached
      exact ih reply (follows reply middle stepped) rest

theorem Reaches.attempt {prog : Prog Op Resp ε α} {state after : σ} {value : α}
    (reaches : prog.Reaches step state value after) : prog.attempt.Reaches step state (.ok value) after := by
  induction prog generalizing state with
  | ret result => exact ⟨congrArg _ reaches.1, reaches.2⟩
  | fail error => exact reaches.elim
  | call op next ih =>
      obtain ⟨reply, middle, stepped, rest⟩ := reaches
      exact ⟨reply, middle, stepped, ih reply rest⟩

/-- Every execution under `step` that returns is one under `ideal`. -/
def Tracks (step ideal : (op : Op) → σ → Resp op → σ → Prop) (prog : Prog Op Resp ε α) (state : σ) : Prop :=
  prog.Follows step (fun outcome after => ∀ value, outcome = .ok value → prog.Reaches ideal state value after) state

theorem tracks_ret (value : α) (state : σ) : (ret value : Prog Op Resp ε α).Tracks step ideal state := by
  rintro _ ⟨⟩
  exact ⟨rfl, rfl⟩

theorem tracks_fail (error : ε) (state : σ) : (fail error : Prog Op Resp ε α).Tracks step ideal state := by
  rintro _ ⟨⟩

theorem Tracks.bind {prog : Prog Op Resp ε α} {next : α → Prog Op Resp ε β} {state : σ}
    (first : prog.Tracks step ideal state)
    (rest : ∀ value middle, prog.Reaches ideal state value middle → (next value).Tracks step ideal middle) :
    (prog.bind next).Tracks step ideal state := by
  apply Follows.bind
  apply Follows.weaken first
  intro outcome middle reaches
  cases outcome with
  | error error => exact fun _ wrong => nomatch wrong
  | ok value =>
      have here := reaches value rfl
      apply (rest value middle here).weaken
      exact fun _ _ later result done => reaches_bind.mpr ⟨value, middle, here, later result done⟩

theorem tracks_ofExcept (result : Except ε α) (state : σ) :
    (ofExcept result : Prog Op Resp ε α).Tracks step ideal state := by
  cases result with
  | ok value => exact tracks_ret value state
  | error error => exact tracks_fail error state

theorem tracks_ofExcept_bind {result : Except ε α} {next : α → Prog Op Resp ε β} {state : σ}
    (rest : ∀ value, result = .ok value → (next value).Tracks step ideal state) :
    ((ofExcept result).bind next).Tracks step ideal state := by
  apply (tracks_ofExcept result state).bind
  intro value middle reaches
  obtain ⟨same, rfl⟩ := reaches_ofExcept.mp reaches
  exact rest value same

/-- No execution under `step` returns. -/
def Stops (step : (op : Op) → σ → Resp op → σ → Prop) (prog : Prog Op Resp ε α) (state : σ) : Prop :=
  prog.Follows step (fun outcome _ => ∀ value, outcome ≠ .ok value) state

theorem stops_fail (error : ε) (state : σ) : (fail error : Prog Op Resp ε α).Stops step state :=
  fun _ => nofun

theorem Stops.tracks {prog : Prog Op Resp ε α} {state : σ} (stops : prog.Stops step state) :
    prog.Tracks step ideal state :=
  Follows.weaken stops (fun _ _ never value done => absurd done (never value))

theorem stops_ofExcept_bind {result : Except ε α} {next : α → Prog Op Resp ε β} {state : σ}
    (rest : ∀ value, result = .ok value → (next value).Stops step state) :
    ((ofExcept result).bind next).Stops step state :=
  follows_ofExcept_bind (fun _ _ _ => nofun) rest

end Reaches

/-- Run with every operation carried out by `perform`. -/
def execute (perform : σ → (op : Op) → Resp op × σ) : Prog Op Resp ε α → σ → Except ε α × σ
  | .ret value, state => (.ok value, state)
  | .fail error, state => (.error error, state)
  | .call op next, state => (next (perform state op).1).execute perform (perform state op).2

/-- What follows for every execution follows for this one. -/
theorem Follows.execute {step : (op : Op) → σ → Resp op → σ → Prop} {post : Except ε α → σ → Prop}
    {perform : σ → (op : Op) → Resp op × σ}
    (performs : ∀ op state, step op state (perform state op).1 (perform state op).2)
    {prog : Prog Op Resp ε α} {state : σ} (follows : prog.Follows step post state) :
    post (prog.execute perform state).1 (prog.execute perform state).2 := by
  induction prog generalizing state with
  | ret value => exact follows
  | fail error => exact follows
  | call op next ih => exact ih _ (follows _ _ (performs op state))

/-- An execution that returns is one way to return. -/
theorem reaches_execute {step : (op : Op) → σ → Resp op → σ → Prop} {perform : σ → (op : Op) → Resp op × σ}
    (performs : ∀ op state, step op state (perform state op).1 (perform state op).2)
    {prog : Prog Op Resp ε α} {state : σ} {value : α} (returned : (prog.execute perform state).1 = .ok value) :
    prog.Reaches step state value (prog.execute perform state).2 := by
  induction prog generalizing state with
  | ret result => exact ⟨Except.ok.inj returned, rfl⟩
  | fail error => cases returned
  | call op next ih => exact ⟨_, _, performs op state, ih _ returned⟩

theorem Follows.and {step : (op : Op) → σ → Resp op → σ → Prop} {post post' : Except ε α → σ → Prop}
    {prog : Prog Op Resp ε α} {state : σ} (one : prog.Follows step post state)
    (two : prog.Follows step post' state) :
    prog.Follows step (fun outcome after => post outcome after ∧ post' outcome after) state := by
  induction prog generalizing state with
  | ret value => exact ⟨one, two⟩
  | fail error => exact ⟨one, two⟩
  | call op next ih => exact fun reply after stepped => ih reply (one reply after stepped) (two reply after stepped)

/-- Every execution that `step` allows performs good operations only, and ends as
`post` says. -/
def Confined (good : Op → σ → Prop) (step : (op : Op) → σ → Resp op → σ → Prop)
    (post : Except ε α → σ → Prop) : Prog Op Resp ε α → σ → Prop
  | .ret value, state => post (.ok value) state
  | .fail error, state => post (.error error) state
  | .call op next, state =>
      good op state ∧ ∀ reply after, step op state reply after → (next reply).Confined good step post after

section Confined

variable {good : Op → σ → Prop} {step : (op : Op) → σ → Resp op → σ → Prop}

theorem Confined.weaken {post post' : Except ε α → σ → Prop} {prog : Prog Op Resp ε α} {state : σ}
    (confined : prog.Confined good step post state)
    (implies : ∀ outcome after, post outcome after → post' outcome after) :
    prog.Confined good step post' state := by
  induction prog generalizing state with
  | ret value => exact implies _ _ confined
  | fail error => exact implies _ _ confined
  | call op next ih =>
      exact ⟨confined.1, fun reply after stepped => ih reply (confined.2 reply after stepped)⟩

theorem Confined.follows {post : Except ε α → σ → Prop} {prog : Prog Op Resp ε α} {state : σ}
    (confined : prog.Confined good step post state) : prog.Follows step post state := by
  induction prog generalizing state with
  | ret value => exact confined
  | fail error => exact confined
  | call op next ih => exact fun reply after stepped => ih reply (confined.2 reply after stepped)

theorem Follows.confined {post : Except ε α → σ → Prop} {prog : Prog Op Resp ε α} {state : σ}
    (follows : prog.Follows step post state) : prog.Confined (fun _ _ => True) step post state := by
  induction prog generalizing state with
  | ret value => exact follows
  | fail error => exact follows
  | call op next ih =>
      exact ⟨trivial, fun reply after stepped => ih reply (follows reply after stepped)⟩

theorem Confined.bind {post : Except ε β → σ → Prop} {prog : Prog Op Resp ε α}
    {next : α → Prog Op Resp ε β} {state : σ}
    (confined : prog.Confined good step
      (fun outcome after => (resume next outcome).Confined good step post after) state) :
    (prog.bind next).Confined good step post state := by
  induction prog generalizing state with
  | ret value => exact confined
  | fail error => exact confined
  | call op rest ih =>
      exact ⟨confined.1, fun reply after stepped => ih reply (confined.2 reply after stepped)⟩

theorem Confined.attempt {post : Except ε (Except ε α) → σ → Prop} {prog : Prog Op Resp ε α}
    {state : σ} (confined : prog.Confined good step (fun outcome => post (.ok outcome)) state) :
    prog.attempt.Confined good step post state := by
  induction prog generalizing state with
  | ret value => exact confined
  | fail error => exact confined
  | call op next ih =>
      exact ⟨confined.1, fun reply after stepped => ih reply (confined.2 reply after stepped)⟩

theorem confined_ofExcept {post : Except ε α → σ → Prop} {result : Except ε α} {state : σ}
    (holds : post result state) :
    (ofExcept result : Prog Op Resp ε α).Confined good step post state := by
  cases result with
  | ok value => exact holds
  | error error => exact holds

theorem confined_ofExcept_bind {post : Except ε β → σ → Prop} {result : Except ε α}
    {next : α → Prog Op Resp ε β} {state : σ} (stops : ∀ error, post (.error error) state)
    (rest : ∀ value, result = .ok value → (next value).Confined good step post state) :
    ((ofExcept result).bind next).Confined good step post state := by
  cases result with
  | ok value => exact rest value rfl
  | error error => exact stops error

theorem confined_request_bind {post : Except ε β → σ → Prop} {op : Op} {result : Resp op → Except ε α}
    {next : α → Prog Op Resp ε β} {state : σ} (isGood : good op state)
    (stops : ∀ error after, post (.error error) after)
    (rest : ∀ reply after value, step op state reply after → result reply = .ok value →
      (next value).Confined good step post after) :
    ((Prog.request op result).bind next).Confined good step post state :=
  ⟨isGood, fun reply after stepped => confined_ofExcept_bind (fun error => stops error after)
    (fun value done => rest reply after value stepped done)⟩

/-- Handlers that are confined, and answer good operations as the inner steps allow,
carry over what is known of the program. -/
theorem Confined.handle {τ ν : Type} {asked : Op' → τ → Prop}
    {inner : (op : Op') → τ → Resp' op → τ → Prop} {post : Except ε' α → τ → Prop}
    {handler : ν → (op : Op') → Prog Op Resp ε (Resp' op × ν)} {prog : Prog Op' Resp' ε' α}
    (held : τ → ν → σ → Prop) {ghost : τ} (confined : prog.Confined asked inner post ghost)
    (handled : ∀ op ghost own state, asked op ghost → held ghost own state →
      (handler own op).Confined good step (fun result after => ∃ reply own' ghost',
        result = .ok (reply, own') ∧ inner op ghost reply ghost' ∧ held ghost' own' after) state)
    {own : ν} {state : σ} (holds : held ghost own state) :
    (prog.handle handler own).Confined good step (fun outcome after => ∃ result own' ghost',
      outcome = .ok (result, own') ∧ post result ghost' ∧ held ghost' own' after) state := by
  induction prog generalizing ghost own state with
  | ret value => exact ⟨_, own, ghost, rfl, confined, holds⟩
  | fail error => exact ⟨_, own, ghost, rfl, confined, holds⟩
  | call op next ih =>
      apply Confined.bind
      apply (handled op ghost own state confined.1 holds).weaken
      intro result after ⟨reply, own', ghost', done, answered, kept⟩
      subst done
      exact ih reply (confined.2 reply ghost' answered) kept

theorem Confined.handle_follows {τ ν : Type} {asked : Op' → τ → Prop}
    {inner : (op : Op') → τ → Resp' op → τ → Prop} {post : Except ε' α → τ → Prop}
    {handler : ν → (op : Op') → Prog Op Resp ε (Resp' op × ν)} {prog : Prog Op' Resp' ε' α}
    (held : τ → ν → σ → Prop) {ghost : τ} (confined : prog.Confined asked inner post ghost)
    (handled : ∀ op ghost own state, asked op ghost → held ghost own state →
      (handler own op).Follows step (fun result after => ∃ reply own' ghost',
        result = .ok (reply, own') ∧ inner op ghost reply ghost' ∧ held ghost' own' after) state)
    {own : ν} {state : σ} (holds : held ghost own state) :
    (prog.handle handler own).Follows step (fun outcome after => ∃ result own' ghost',
      outcome = .ok (result, own') ∧ post result ghost' ∧ held ghost' own' after) state := by
  have whole : (prog.handle handler own).Confined (fun _ _ => True) step _ state :=
    confined.handle held (fun op ghost own state good kept => (handled op ghost own state good kept).confined) holds
  exact whole.follows

end Confined

/-- What every handler keeps, the interpreted program keeps. -/
theorem handle_keeps {ν : Type} {step : (op : Op) → σ → Resp op → σ → Prop}
    {handler : ν → (op : Op') → Prog Op Resp ε (Resp' op × ν)} (held : ν → σ → Prop)
    (handled : ∀ own op state, held own state → (handler own op).Follows step
      (fun outcome after => ∃ reply, outcome = .ok reply ∧ held reply.2 after) state)
    {prog : Prog Op' Resp' ε' α} {own : ν} {state : σ} (holds : held own state) :
    (prog.handle handler own).Follows step
      (fun outcome after => ∃ result, outcome = .ok result ∧ held result.2 after) state := by
  induction prog generalizing own state with
  | ret value => exact ⟨_, rfl, holds⟩
  | fail error => exact ⟨_, rfl, holds⟩
  | call op next ih =>
      apply Follows.bind
      apply (handled own op state holds).weaken
      rintro outcome after ⟨reply, rfl, kept⟩
      exact ih reply.1 kept

/-- Notes that a handler takes on the side do not change what follows. -/
theorem handle_noted {ν τ : Type} (handler : ν → (op : Op') → Prog Op Resp ε (Resp' op × ν)) (note : τ → Op' → τ)
    (next : Except ε' α → ν → Prog Op Resp ε β) (prog : Prog Op' Resp' ε' α) (own : ν) (notes : τ) :
    (prog.handle (fun (noted : ν × τ) op => (handler noted.1 op).bind
      (fun reply => .ret (reply.1, reply.2, note noted.2 op))) (own, notes)).bind
        (fun result => next result.1 result.2.1) =
      (prog.handle handler own).bind (fun result => next result.1 result.2) := by
  induction prog generalizing own notes with
  | ret value => rfl
  | fail error => rfl
  | call op rest ih =>
      simp only [handle, bind_assoc, ret_bind]
      congr 1
      funext reply
      exact ih reply.1 reply.2 _

/-- A program whose operations are passed on as they are, and what is done with its outcome. -/
theorem follows_relay {step : (op : Op) → σ → Resp op → σ → Prop} {post : Except ε' β → σ → Prop}
    {prog : Prog Op Resp ε α} {rest : Except ε α × Unit → Prog Op Resp ε' β} {state : σ}
    (follows : prog.Follows step (fun outcome after => (rest (outcome, ())).Follows step post after) state) :
    ((prog.handle (fun (_ : Unit) op => (perform op).bind (fun reply => .ret (reply, ()))) ()).bind rest).Follows
      step post state := by
  induction prog generalizing state with
  | ret value => exact follows
  | fail error => exact follows
  | call op next ih => exact fun reply after stepped => ih reply (follows reply after stepped)

/-- Steps that note each operation, whatever the reply. -/
def noting (note : σ → Op → σ) : (op : Op) → σ → Resp op → σ → Prop := fun op state _ after =>
  after = note state op

/-- Carry out operations and note them on the side. -/
def observed {τ : Type} (perform : σ → (op : Op) → Resp op × σ) (note : τ → Op → τ) (state : σ × τ) (op : Op) :
    Resp op × (σ × τ) :=
  ((perform state.1 op).1, ((perform state.1 op).2, note state.2 op))

theorem Follows.observed {τ : Type} {perform : σ → (op : Op) → Resp op × σ} {note : τ → Op → τ}
    {post : Except ε α → τ → Prop} {prog : Prog Op Resp ε α} {noted : τ}
    (follows : prog.Follows (noting note) post noted) (state : σ) :
    post (prog.execute (Prog.observed perform note) (state, noted)).1
      (prog.execute (Prog.observed perform note) (state, noted)).2.2 := by
  induction prog generalizing state noted with
  | ret value => exact follows
  | fail error => exact follows
  | call op next ih => exact ih _ (follows _ _ rfl) _

/-- One way the program can end. -/
inductive Ends (step : (op : Op) → σ → Resp op → σ → Prop) : Prog Op Resp ε α → σ → Except ε α → Prop where
  | ret (value : α) (state : σ) : Ends step (.ret value) state (.ok value)
  | fail (error : ε) (state : σ) : Ends step (.fail error) state (.error error)
  | call {op : Op} {next : Resp op → Prog Op Resp ε α} {state after : σ} {reply : Resp op}
      {outcome : Except ε α} (stepped : step op state reply after) (rest : Ends step (next reply) after outcome) :
      Ends step (.call op next) state outcome

/-- Where good operations have the same replies on either side, confined programs end
in the same ways. -/
theorem Confined.ends {good : Op → σ → Prop} {step : (op : Op) → σ → Resp op → σ → Prop} {alike : σ → σ → Prop}
    (simulates : ∀ op left right reply after, good op left → alike left right → step op left reply after →
      ∃ after', step op right reply after' ∧ alike after after') {post : Except ε α → σ → Prop}
    {prog : Prog Op Resp ε α} {left right : σ} (confined : prog.Confined good step post left)
    (same : alike left right) {outcome : Except ε α} (ends : prog.Ends step left outcome) :
    prog.Ends step right outcome := by
  induction ends generalizing right with
  | ret value state => exact .ret value right
  | fail error state => exact .fail error right
  | call stepped rest ih =>
      rcases simulates _ _ _ _ _ confined.1 same stepped with ⟨after', stepped', same'⟩
      exact .call stepped' (ih (confined.2 _ _ stepped) same')

/-- Confinement carries over to the other side. -/
theorem Confined.transfer {good : Op → σ → Prop} {step : (op : Op) → σ → Resp op → σ → Prop}
    {alike : σ → σ → Prop} (carries : ∀ op left right, good op left → alike left right → good op right)
    (simulates : ∀ op left right reply after, good op left → alike left right → step op right reply after →
      ∃ after', step op left reply after' ∧ alike after' after) {post : Except ε α → σ → Prop}
    {prog : Prog Op Resp ε α} {left right : σ} (confined : prog.Confined good step post left)
    (same : alike left right) : prog.Confined good step (fun _ _ => True) right := by
  induction prog generalizing left right with
  | ret value => trivial
  | fail error => trivial
  | call op next ih =>
      refine ⟨carries op left right confined.1 same, ?_⟩
      intro reply after stepped
      rcases simulates op left right reply after confined.1 same stepped with ⟨after', stepped', same'⟩
      exact ih reply (confined.2 reply after' stepped') same'

/-- Whatever the oracle answers, the program ends as `post` says. -/
def Meets (answer : (op : Op) → Resp op → Prop) (post : Except ε α → Prop)
    (prog : Prog Op Resp ε α) : Prop :=
  prog.Follows (fun op (_ : Unit) reply _ => answer op reply) (fun outcome _ => post outcome) ()

section Meets

variable {answer : (op : Op) → Resp op → Prop}

theorem Meets.weaken {post post' : Except ε α → Prop} {prog : Prog Op Resp ε α}
    (meets : prog.Meets answer post) (implies : ∀ outcome, post outcome → post' outcome) :
    prog.Meets answer post' :=
  Follows.weaken meets (fun outcome _ => implies outcome)

theorem Meets.bind {post : Except ε β → Prop} {prog : Prog Op Resp ε α}
    {next : α → Prog Op Resp ε β}
    (meets : prog.Meets answer (fun outcome => (resume next outcome).Meets answer post)) :
    (prog.bind next).Meets answer post :=
  Follows.bind meets

theorem Meets.attempt {post : Except ε (Except ε α) → Prop} {prog : Prog Op Resp ε α}
    (meets : prog.Meets answer (fun outcome => post (.ok outcome))) :
    prog.attempt.Meets answer post :=
  Follows.attempt meets

theorem meets_request {post : Except ε α → Prop} {op : Op} {result : Resp op → Except ε α}
    (holds : ∀ reply, answer op reply → post (result reply)) :
    (Prog.request op result).Meets answer post :=
  fun reply _ answered => follows_ofExcept (holds reply answered)

theorem Meets.lift {τ : Type} {step : (op : Op') → τ → Resp' op → τ → Prop}
    {post : Except ε α → Prop} {handler : (op : Op) → Prog Op' Resp' ε (Resp op)} {held : τ → Prop}
    {prog : Prog Op Resp ε α} (meets : prog.Meets answer post)
    (handled : ∀ op own, held own → (handler op).Follows step
      (fun result own' => ∃ reply, result = .ok reply ∧ answer op reply ∧ held own') own)
    {own : τ} (holds : held own) :
    (prog.lift handler).Follows step (fun outcome own' => post outcome ∧ held own') own := by
  have lifted := Follows.lift (fun _ own => held own) meets
    (by
      intro op _ own kept
      apply (handled op own kept).weaken
      intro result own' ⟨reply, done, answered, kept'⟩
      exact ⟨reply, (), done, answered, kept'⟩) holds
  exact lifted.weaken (fun outcome own' ⟨_, ends, kept⟩ => ⟨ends, kept⟩)

end Meets

/-- Run against fixed replies, recording the operations in order. -/
def run (replies : (op : Op) → Resp op) : Prog Op Resp ε α → List Op × Except ε α
  | .ret value => ([], .ok value)
  | .fail error => ([], .error error)
  | .call op next =>
      (op :: ((next (replies op)).run replies).1, ((next (replies op)).run replies).2)

section Run

variable {replies : (op : Op) → Resp op}

/-- Fixed replies that the oracle allows give an outcome that it allows. -/
theorem Meets.run {answer : (op : Op) → Resp op → Prop} {post : Except ε α → Prop}
    {prog : Prog Op Resp ε α} (meets : prog.Meets answer post) (answers : ∀ op, answer op (replies op)) :
    post (prog.run replies).2 := by
  induction prog with
  | ret value => exact meets
  | fail error => exact meets
  | call op next ih => exact ih (replies op) (meets (replies op) () (answers op))

theorem Reaches.run {step : (op : Op) → σ → Resp op → σ → Prop} {prog : Prog Op Resp ε α} {state after : σ}
    {value : α} (reaches : prog.Reaches step state value after)
    (answers : ∀ op state reply after, step op state reply after → reply = replies op) :
    (prog.run replies).2 = .ok value := by
  induction prog generalizing state with
  | ret result => exact congrArg _ reaches.1
  | fail error => exact reaches.elim
  | call op next ih =>
      obtain ⟨reply, middle, stepped, rest⟩ := reaches
      cases answers op state reply middle stepped
      exact ih _ rest

theorem run_bind (prog : Prog Op Resp ε α) (next : α → Prog Op Resp ε β) :
    (prog.bind next).run replies = ((prog.run replies).1 ++ ((resume next (prog.run replies).2).run replies).1,
      ((resume next (prog.run replies).2).run replies).2) := by
  induction prog with
  | ret value => rfl
  | fail error => rfl
  | call op rest ih => simp only [bind, run, ih, List.cons_append]

/-- Only the replies that are asked for matter. -/
theorem run_congr {replies' : (op : Op) → Resp op} {prog : Prog Op Resp ε α}
    (same : ∀ op ∈ (prog.run replies).1, replies' op = replies op) : prog.run replies' = prog.run replies := by
  induction prog with
  | ret value => rfl
  | fail error => rfl
  | call op next ih =>
      have here : replies' op = replies op := same op List.mem_cons_self
      simp only [run, here]
      rw [ih (replies op) (fun other member => same other (List.mem_cons_of_mem _ member))]

/-- A confined program asks for good operations only. -/
theorem Confined.run {good : Op → σ → Prop} {step : (op : Op) → σ → Resp op → σ → Prop}
    {post : Except ε α → σ → Prop} {prog : Prog Op Resp ε α} {state : σ}
    (confined : prog.Confined good step post state) (still : ∀ op, step op state (replies op) state) :
    ∀ op ∈ (prog.run replies).1, good op state := by
  induction prog with
  | ret value => exact fun op member => nomatch member
  | fail error => exact fun op member => nomatch member
  | call op next ih =>
      intro other member
      rcases List.mem_cons.mp member with rfl | later
      · exact confined.1
      · exact ih (replies op) (confined.2 _ _ (still op)) other later

theorem run_bind_eq_ok {prog : Prog Op Resp ε α} {next : α → Prog Op Resp ε β} {value : β} :
    ((prog.bind next).run replies).2 = .ok value ↔
      ∃ middle, (prog.run replies).2 = .ok middle ∧ ((next middle).run replies).2 = .ok value := by
  rw [run_bind]
  cases outcome : (prog.run replies).2 with
  | ok middle =>
      constructor
      · intro done
        exact ⟨middle, rfl, done⟩
      · intro ⟨_, same, done⟩
        cases same
        exact done
  | error error =>
      constructor
      · intro done
        cases done
      · intro ⟨_, same, _⟩
        cases same

theorem run_ofExcept (result : Except ε α) :
    ((ofExcept result : Prog Op Resp ε α).run replies).2 = result := by
  cases result <;> rfl

theorem run_request (op : Op) (result : Resp op → Except ε α) :
    ((Prog.request op result).run replies).2 = result (replies op) := run_ofExcept _

theorem run_guard_eq_ok {condition : Prop} [Decidable condition] {error : ε} {prog : Prog Op Resp ε α}
    {value : α} : (((if condition then Prog.fail error else prog).run replies).2 = .ok value) ↔
      ¬ condition ∧ (prog.run replies).2 = .ok value := by
  by_cases holds : condition <;> simp [holds, run]

/-- Interpreting operations by programs with these answers is running on the answers. -/
theorem run_lift {answers : (op : Op') → Resp' op} {handler : (op : Op') → Prog Op Resp ε (Resp' op)}
    (handled : ∀ op, ((handler op).run replies).2 = .ok (answers op)) (prog : Prog Op' Resp' ε α) :
    ((prog.lift handler).run replies).2 = (prog.run answers).2 := by
  induction prog with
  | ret value => rfl
  | fail error => rfl
  | call op next ih =>
      simp only [lift, run_bind, handled op, resume]
      exact ih (answers op)

theorem run_attempt (prog : Prog Op Resp ε α) :
    (prog.attempt.run replies).2 = .ok (prog.run replies).2 := by
  induction prog with
  | ret value => rfl
  | fail error => rfl
  | call op next ih => exact ih (replies op)

/-- A request that is answered by an error stops the program. -/
def Strict {τ : Type} : Prog Op (fun _ => Except ε' τ) ε α → Prop
  | .ret _ => True
  | .fail _ => True
  | .call _ next => (∀ error, ∃ stop, next (.error error) = .fail stop) ∧ ∀ reply, (next (.ok reply)).Strict

theorem strict_ofExcept_bind {τ : Type} {result : Except ε α} {next : α → Prog Op (fun _ => Except ε' τ) ε β}
    (rest : ∀ value, (next value).Strict) : ((ofExcept result).bind next).Strict := by
  cases result with
  | ok value => exact rest value
  | error error => trivial

theorem strict_request_bind {τ : Type} {op : Op} {result : Except ε' τ → Except ε α}
    {next : α → Prog Op (fun _ => Except ε' τ) ε β} (stops : ∀ error, ∃ stop, result (.error error) = .error stop)
    (rest : ∀ value, (next value).Strict) : ((Prog.request op result).bind next).Strict := by
  refine ⟨?_, fun reply => strict_ofExcept_bind rest⟩
  intro error
  obtain ⟨stop, same⟩ := stops error
  refine ⟨stop, ?_⟩
  show (ofExcept (result (.error error))).bind next = .fail stop
  rw [same]
  rfl

/-- Every execution keeps the invariant, and what it returns is as said. -/
def Tells (step : (op : Op) → σ → Resp op → σ → Prop) (inv : σ → Prop) (told : α → Prop)
    (prog : Prog Op Resp ε α) : Prop :=
  ∀ state, inv state → prog.Follows step (fun outcome after =>
    inv after ∧ ∀ value, outcome = .ok value → told value) state

section Tells

variable {step : (op : Op) → σ → Resp op → σ → Prop} {inv : σ → Prop}

theorem tells_ret {told : α → Prop} {value : α} (said : told value) :
    (ret value : Prog Op Resp ε α).Tells step inv told := by
  intro state holds
  refine ⟨holds, ?_⟩
  intro other same
  cases same
  exact said

theorem tells_fail {told : α → Prop} (error : ε) : (fail error : Prog Op Resp ε α).Tells step inv told :=
  fun _ holds => ⟨holds, fun _ wrong => nomatch wrong⟩

theorem tells_call {told : α → Prop} {op : Op} {next : Resp op → Prog Op Resp ε α} (answer : Resp op → Prop)
    (stepped : ∀ state reply after, inv state → step op state reply after → inv after ∧ answer reply)
    (rest : ∀ reply, answer reply → (next reply).Tells step inv told) :
    (call op next).Tells step inv told := by
  intro state holds reply after taken
  obtain ⟨kept, answered⟩ := stepped state reply after holds taken
  exact rest reply answered after kept

theorem Tells.bind {told : α → Prop} {told' : β → Prop} {prog : Prog Op Resp ε α} {next : α → Prog Op Resp ε β}
    (first : prog.Tells step inv told) (rest : ∀ value, told value → (next value).Tells step inv told') :
    (prog.bind next).Tells step inv told' := by
  intro state holds
  apply Follows.bind
  apply (first state holds).weaken
  intro outcome after ⟨kept, said⟩
  cases outcome with
  | ok value => exact rest value (said value rfl) after kept
  | error error => exact ⟨kept, fun _ wrong => nomatch wrong⟩

theorem tells_ofExcept {told : α → Prop} {result : Except ε α} (said : ∀ value, result = .ok value → told value) :
    (ofExcept result : Prog Op Resp ε α).Tells step inv told := by
  cases result with
  | ok value => exact tells_ret (said value rfl)
  | error error => exact tells_fail error

theorem tells_ofExcept_bind {told : β → Prop} {result : Except ε α} {next : α → Prog Op Resp ε β}
    (rest : ∀ value, result = .ok value → (next value).Tells step inv told) :
    ((ofExcept result).bind next).Tells step inv told :=
  (tells_ofExcept (fun _ same => same)).bind rest

theorem Tells.attempt {told : α → Prop} {prog : Prog Op Resp ε α} (tells : prog.Tells step inv told) :
    prog.attempt.Tells step inv (fun outcome => ∀ value, outcome = .ok value → told value) := by
  intro state holds
  apply Follows.attempt
  apply (tells state holds).weaken
  intro outcome after ⟨kept, said⟩
  refine ⟨kept, ?_⟩
  intro other same
  cases same
  exact said

/-- A program whose operations are passed on as they are. -/
theorem Tells.relay {told : α → Prop} {told' : β → Prop} {prog : Prog Op Resp ε α}
    {rest : Except ε α × Unit → Prog Op Resp ε' β} (tells : prog.Tells step inv told)
    (stops : ∀ error, (rest (.error error, ())).Tells step inv told')
    (goes : ∀ value, told value → (rest (.ok value, ())).Tells step inv told') :
    ((prog.handle (fun (_ : Unit) op => (perform op).bind (fun reply => .ret (reply, ()))) ()).bind rest).Tells
      step inv told' := by
  intro state holds
  apply follows_relay
  apply (tells state holds).weaken
  intro outcome after ⟨kept, said⟩
  cases outcome with
  | ok value => exact goes value (said value rfl) after kept
  | error error => exact stops error after kept

/-- A strict program that returns under a handler returns the same when it is run on
replies that the handler's successes agree with. -/
theorem Tells.handle {τ ν : Type} {handler : ν → (op : Op') → Prog Op Resp ε (Except ε' τ × ν)}
    {answers : Op' → Except ε' τ} {own : ν} (good : ν → Prop)
    (handled : ∀ own op, good own → (handler own op).Tells step inv (fun result =>
      good result.2 ∧ ∀ value, result.1 = .ok value → answers op = .ok value))
    {prog : Prog Op' (fun _ => Except ε' τ) ε' α} (strict : prog.Strict) (begins : good own) :
    (prog.handle handler own).Tells step inv (fun result =>
      good result.2 ∧ ∀ value, result.1 = .ok value → (prog.run answers).2 = .ok value) := by
  induction prog generalizing own with
  | ret value => exact tells_ret ⟨begins, fun _ => id⟩
  | fail error => exact tells_ret ⟨begins, fun _ wrong => nomatch wrong⟩
  | call op next ih =>
      apply (handled own op begins).bind
      intro result ⟨kept, answered⟩
      obtain ⟨reply, own'⟩ := result
      cases reply with
      | error error =>
          obtain ⟨stop, same⟩ := strict.1 error
          dsimp only
          rw [same]
          exact tells_ret ⟨kept, fun _ wrong => nomatch wrong⟩
      | ok value =>
          have agreed : answers op = .ok value := answered value rfl
          have later := ih (.ok value) (strict.2 value) kept
          rw [← agreed] at later
          dsimp only
          rw [← agreed]
          exact later

theorem Tells.reaches {told : α → Prop} {prog : Prog Op Resp ε α} {state after : σ} {value : α}
    (tells : prog.Tells step inv told) (holds : inv state) (reached : prog.Reaches step state value after) :
    inv after ∧ told value := by
  obtain ⟨kept, said⟩ := (tells state holds).reaches reached
  exact ⟨kept, said value rfl⟩

end Tells

/-- At most this many operations, whatever the replies. -/
def AtMost : Prog Op Resp ε α → Nat → Prop
  | .ret _, _ => True
  | .fail _, _ => True
  | .call _ next, count => ∃ fewer, count = fewer + 1 ∧ ∀ reply, (next reply).AtMost fewer

theorem AtMost.mono {prog : Prog Op Resp ε α} {count more : Nat} (bounded : prog.AtMost count)
    (le : count ≤ more) : prog.AtMost more := by
  induction prog generalizing count more with
  | ret value => trivial
  | fail error => trivial
  | call op next ih =>
      rcases bounded with ⟨fewer, rfl, rest⟩
      exact ⟨more - 1, by omega, fun reply => ih reply (rest reply) (by omega)⟩

theorem AtMost.bind {prog : Prog Op Resp ε α} {next : α → Prog Op Resp ε β} {first second : Nat}
    (bounded : prog.AtMost first) (rest : ∀ value, (next value).AtMost second) :
    (prog.bind next).AtMost (first + second) := by
  induction prog generalizing first with
  | ret value => exact (rest value).mono (Nat.le_add_left _ _)
  | fail error => trivial
  | call op tail ih =>
      rcases bounded with ⟨fewer, rfl, later⟩
      exact ⟨fewer + second, by omega, fun reply => ih reply (later reply)⟩

theorem atMost_ofExcept (result : Except ε α) (count : Nat) :
    (ofExcept result : Prog Op Resp ε α).AtMost count := by
  cases result <;> trivial

theorem atMost_ofExcept_bind {result : Except ε α} {next : α → Prog Op Resp ε β} {count : Nat}
    (rest : ∀ value, (next value).AtMost count) : ((ofExcept result).bind next).AtMost count := by
  cases result with
  | ok value => exact rest value
  | error error => trivial

theorem atMost_request_bind {op : Op} {result : Resp op → Except ε α} {next : α → Prog Op Resp ε β}
    {count : Nat} (rest : ∀ value, (next value).AtMost count) :
    ((Prog.request op result).bind next).AtMost (count + 1) :=
  ⟨count, rfl, fun _ => atMost_ofExcept_bind rest⟩

theorem AtMost.run {prog : Prog Op Resp ε α} {count : Nat} (bounded : prog.AtMost count) :
    (prog.run replies).1.length ≤ count := by
  induction prog generalizing count with
  | ret value => exact Nat.zero_le _
  | fail error => exact Nat.zero_le _
  | call op next ih =>
      rcases bounded with ⟨fewer, rfl, rest⟩
      exact Nat.succ_le_succ (ih (replies op) (rest (replies op)))

end Run

/-- Run with every request granted, recording the requests in order. -/
def collect {Op ε α : Type} : Prog Op (fun _ => Except ε Unit) ε α → List Op × Except ε α
  | .ret value => ([], .ok value)
  | .fail error => ([], .error error)
  | .call op next => (op :: (next (.ok ())).collect.1, (next (.ok ())).collect.2)

section Collect

variable {Op ε α β : Type}

@[simp] theorem collect_ret (value : α) :
    (Prog.ret value : Prog Op (fun _ => Except ε Unit) ε α).collect = ([], .ok value) := rfl

@[simp] theorem collect_fail (error : ε) :
    (Prog.fail error : Prog Op (fun _ => Except ε Unit) ε α).collect = ([], .error error) := rfl

theorem collect_ofExcept (result : Except ε α) :
    (ofExcept result : Prog Op (fun _ => Except ε Unit) ε α).collect = ([], result) := by
  cases result <;> rfl

theorem collect_bind (prog : Prog Op (fun _ => Except ε Unit) ε α)
    (next : α → Prog Op (fun _ => Except ε Unit) ε β) :
    (prog.bind next).collect = (prog.collect.1 ++ (resume next prog.collect.2).collect.1,
      (resume next prog.collect.2).collect.2) := by
  induction prog with
  | ret value => rfl
  | fail error => rfl
  | call op rest ih => simp only [bind, collect, ih, List.cons_append]

/-- A granted sequence is granted piecewise. -/
theorem collect_bind_eq_ok {prog : Prog Op (fun _ => Except ε Unit) ε α}
    {next : α → Prog Op (fun _ => Except ε Unit) ε β} {ops : List Op} {value : β} :
    (prog.bind next).collect = (ops, .ok value) ↔
      ∃ first middle second, prog.collect = (first, .ok middle) ∧
        (next middle).collect = (second, .ok value) ∧ ops = first ++ second := by
  induction prog generalizing ops with
  | ret middle =>
      constructor
      · intro granted
        exact ⟨[], middle, ops, rfl, granted, rfl⟩
      · intro ⟨first, middle', second, stopped, rest, whole⟩
        cases stopped
        rw [whole]
        exact rest
  | fail error =>
      constructor
      · intro granted
        cases granted
      · intro ⟨first, middle', second, stopped, _, _⟩
        cases stopped
  | call op tail ih =>
      constructor
      · intro granted
        have later : ((tail (.ok ())).bind next).collect =
            (((tail (.ok ())).bind next).collect.1, .ok value) := by
          rw [← (Prod.mk.inj granted).2]
        rcases (ih (.ok ())).mp later with ⟨first, middle, second, head, rest, whole⟩
        refine ⟨op :: first, middle, second, ?_, rest, ?_⟩
        · simp only [collect, head]
        · rw [← (Prod.mk.inj granted).1, List.cons_append, ← whole]
      · intro ⟨first, middle, second, head, rest, whole⟩
        have shape := Prod.mk.inj head
        have later := (ih (.ok ())).mpr ⟨(tail (.ok ())).collect.1, middle, second,
          Prod.ext rfl shape.2, rest, rfl⟩
        simp only [bind, collect, later, whole, ← shape.1, List.cons_append]

theorem collect_request {op : Op} {message : Except ε Unit → Except ε α} {ops : List Op} {value : α} :
    (Prog.request op message : Prog Op (fun _ => Except ε Unit) ε α).collect = (ops, .ok value) ↔
      ops = [op] ∧ message (.ok ()) = .ok value := by
  simp only [request, collect, collect_ofExcept, Prod.mk.injEq]
  constructor
  · intro ⟨same, granted⟩
    exact ⟨same.symm, granted⟩
  · intro ⟨same, granted⟩
    exact ⟨same.symm, granted⟩

theorem collect_guard {condition : Prop} [Decidable condition] {error : ε}
    {prog : Prog Op (fun _ => Except ε Unit) ε α} {ops : List Op} {value : α} :
    (if condition then Prog.fail error else prog).collect = (ops, .ok value) ↔
      ¬ condition ∧ prog.collect = (ops, .ok value) := by
  by_cases holds : condition <;> simp [holds]

theorem collect_ofExcept_bind {result : Except ε α}
    {next : α → Prog Op (fun _ => Except ε Unit) ε β} {ops : List Op} {value : β} :
    ((ofExcept result).bind next).collect = (ops, .ok value) ↔
      ∃ middle, result = .ok middle ∧ (next middle).collect = (ops, .ok value) := by
  cases result <;> simp

theorem collect_request_bind {op : Op} {message : Except ε Unit → Except ε α}
    {next : α → Prog Op (fun _ => Except ε Unit) ε β} {ops : List Op} {value : β} :
    ((Prog.request op message : Prog Op (fun _ => Except ε Unit) ε α).bind next).collect =
        (ops, .ok value) ↔
      ∃ middle rest, message (.ok ()) = .ok middle ∧ (next middle).collect = (rest, .ok value) ∧
        ops = op :: rest := by
  rw [collect_bind_eq_ok]
  constructor
  · intro ⟨first, middle, second, asked, rest, whole⟩
    rcases collect_request.mp asked with ⟨rfl, answered⟩
    exact ⟨middle, second, answered, rest, whole⟩
  · intro ⟨middle, rest, answered, later, whole⟩
    exact ⟨[op], middle, rest, collect_request.mpr ⟨rfl, answered⟩, later, whole⟩

end Collect

/-- Every operation the program may perform is a good one, whatever the replies. -/
def Asks (good : Op → Prop) : Prog Op Resp ε α → Prop
  | .ret _ => True
  | .fail _ => True
  | .call op next => good op ∧ ∀ reply, (next reply).Asks good

section Asks

variable {good : Op → Prop}

theorem Asks.bind {prog : Prog Op Resp ε α} {next : α → Prog Op Resp ε β} (first : prog.Asks good)
    (rest : ∀ value, (next value).Asks good) : (prog.bind next).Asks good := by
  induction prog with
  | ret value => exact rest value
  | fail error => trivial
  | call op tail ih => exact ⟨first.1, fun reply => ih reply (first.2 reply)⟩

theorem asks_ofExcept (result : Except ε α) : (ofExcept result : Prog Op Resp ε α).Asks good := by
  cases result <;> trivial

/-- A pure step before the rest; the rest may use how it came out. -/
theorem asks_ofExcept_bind {result : Except ε α} {next : α → Prog Op Resp ε β}
    (rest : ∀ value, result = .ok value → (next value).Asks good) :
    ((ofExcept result).bind next).Asks good := by
  cases result with
  | ok value => exact rest value rfl
  | error error => trivial

theorem asks_request {op : Op} {result : Resp op → Except ε α} (isGood : good op) :
    (Prog.request op result).Asks good :=
  ⟨isGood, fun _ => asks_ofExcept _⟩

theorem Asks.attempt {prog : Prog Op Resp ε α} (asks : prog.Asks good) : prog.attempt.Asks good := by
  induction prog with
  | ret value => trivial
  | fail error => trivial
  | call op next ih => exact ⟨asks.1, fun reply => ih reply (asks.2 reply)⟩

theorem Asks.lift {handler : (op : Op') → Prog Op Resp ε (Resp' op)}
    (handled : ∀ op, (handler op).Asks good) (prog : Prog Op' Resp' ε α) : (prog.lift handler).Asks good := by
  induction prog with
  | ret value => trivial
  | fail error => trivial
  | call op next ih => exact (handled op).bind ih

theorem Asks.handle {handler : σ → (op : Op') → Prog Op Resp ε (Resp' op × σ)}
    (handled : ∀ own op, (handler own op).Asks good) (prog : Prog Op' Resp' ε' α) (own : σ) :
    (prog.handle handler own).Asks good := by
  induction prog generalizing own with
  | ret value => trivial
  | fail error => trivial
  | call op next ih => exact (handled own op).bind (fun reply => ih reply.1 reply.2)

theorem asks_guard {condition : Prop} [Decidable condition] {error : ε} {prog : Prog Op Resp ε α}
    (rest : prog.Asks good) : (if condition then Prog.fail error else prog).Asks good := by
  split
  · trivial
  · exact rest

end Asks

theorem Asks.confined {good : Op → σ → Prop} {step : (op : Op) → σ → Resp op → σ → Prop}
    {post : Except ε α → σ → Prop} {prog : Prog Op Resp ε α} {state : σ}
    (asks : prog.Asks (fun op => ∀ state, good op state)) (follows : prog.Follows step post state) :
    prog.Confined good step post state := by
  induction prog generalizing state with
  | ret value => exact follows
  | fail error => exact follows
  | call op next ih =>
      exact ⟨asks.1 state, fun reply after stepped => ih reply (asks.2 reply) (follows reply after stepped)⟩

theorem Asks.run {good : Op → Prop} {prog : Prog Op Resp ε α} (asks : prog.Asks good)
    (replies : (op : Op) → Resp op) : ∀ op ∈ (prog.run replies).1, good op := by
  induction prog with
  | ret value => exact fun op member => nomatch member
  | fail error => exact fun op member => nomatch member
  | call op next ih =>
      intro other member
      rcases List.mem_cons.mp member with rfl | later
      · exact asks.1
      · exact ih _ (asks.2 _) other later

theorem Asks.collect {Op ε α : Type} {good : Op → Prop} {prog : Prog Op (fun _ => Except ε Unit) ε α}
    (asks : prog.Asks good) : ∀ op ∈ prog.collect.1, good op := by
  induction prog with
  | ret value => simp
  | fail error => simp
  | call op next ih =>
      intro other member
      rcases List.mem_cons.mp member with rfl | later
      · exact asks.1
      · exact ih _ (asks.2 _) other later

/-- An operation the first part never performs is one of the rest. -/
theorem Asks.collect_bind_rest {Op ε α β : Type} {good : Op → Prop}
    {prog : Prog Op (fun _ => Except ε Unit) ε α} {next : α → Prog Op (fun _ => Except ε Unit) ε β} {op : Op}
    (asks : prog.Asks good) (member : op ∈ (prog.bind next).collect.1) (bad : ¬ good op) :
    ∃ value, op ∈ (next value).collect.1 ∧ (prog.bind next).collect.2 = (next value).collect.2 := by
  rw [collect_bind] at member ⊢
  rcases List.mem_append.mp member with early | late
  · exact absurd (asks.collect op early) bad
  · cases ended : prog.collect.2 with
    | ok value =>
        rw [ended] at late
        exact ⟨value, late, rfl⟩
    | error error =>
        rw [ended] at late
        cases late

end Prog

end Fossil
