import Fossil.Answers
import Fossil.Worker

/-! What one request may ask of the store.

Every GET of a request is noted with its maximum size, whatever the store replies.
Both servers charge a GET before they issue it, so what is noted never exceeds the
budgets that were charged; the native server opens a second budget for code. -/

namespace Fossil

/-! GETs and the sum of their maximum sizes. -/

def StoreOp.tally (used : Budget) : StoreOp → Budget
  | .getBounded _ maximum => used.spend maximum
  | _ => used

def BucketGet.tally (used : Budget) (get : BucketGet) : Budget := used.spend get.maximum

/-- The limit of one request. -/
def Budget.Within (used : Budget) : Prop := used.gets ≤ maxRequestGets ∧ used.bytes ≤ maxRequestBytes

/-- Whatever the replies, the program stays within the limit of one request. -/
def Limited {Op : Type} {Resp : Op → Type} {ε α : Type} (tally : Budget → Op → Budget)
    (prog : Prog Op Resp ε α) : Prop :=
  prog.Follows (Prog.noting tally) (fun _ used => used.Within) .default

/-- An execution that notes its GETs ends within the limit. -/
theorem Limited.execute {Op : Type} {Resp : Op → Type} {ε α σ : Type} {tally : Budget → Op → Budget}
    {prog : Prog Op Resp ε α} {perform : σ → (op : Op) → Resp op × σ}
    {step : σ × Budget → (op : Op) → Resp op × (σ × Budget)} (limited : Limited tally prog)
    (observes : step = Prog.observed perform tally) (state : σ) :
    (prog.execute step (state, .default)).2.2.Within := by
  subst observes
  exact limited.observed state

/-- What was used since `base` is covered by the budget, and by the limit. -/
structure Covered (base budget used : Budget) : Prop where
  gets : used.gets ≤ base.gets + min budget.gets maxRequestGets
  bytes : used.bytes ≤ base.bytes + min budget.bytes maxRequestBytes

theorem covered_default (base : Budget) : Covered base .default base :=
  ⟨Nat.le_add_right _ _, Nat.le_add_right _ _⟩

theorem Covered.within {budget used : Budget} (covered : Covered .default budget used) : used.Within :=
  ⟨(covered.gets.trans (Nat.le_of_eq (Nat.zero_add _))).trans (Nat.min_le_right _ _),
    (covered.bytes.trans (Nat.le_of_eq (Nat.zero_add _))).trans (Nat.min_le_right _ _)⟩

section

variable {base budget used : Budget} {maximum : Nat}

/-- A GET that is charged for and not issued. -/
theorem Covered.spend (covered : Covered base budget used) : Covered base (budget.spend maximum) used := by
  have gets := covered.gets
  have bytes := covered.bytes
  constructor
  · show used.gets ≤ base.gets + min (budget.gets + 1) maxRequestGets
    omega
  · show used.bytes ≤ base.bytes + min (budget.bytes + maximum) maxRequestBytes
    omega

end

/-! The native reader. -/

section

variable {α β : Type} {base budget : Budget} {gets bytes : Nat}

/-- The code charges its GETs to the budget it is given, no more than this many and this large. -/
def Charged (base budget : Budget) (gets bytes : Nat) (prog : StoreProg (α × Budget)) : Prop :=
  ∀ used, Covered base budget used → prog.Follows (Prog.noting StoreOp.tally) (fun outcome after =>
    ∃ spent, Covered base spent after ∧ spent.gets ≤ budget.gets + gets ∧
      spent.bytes ≤ budget.bytes + bytes ∧ ∀ result, outcome = .ok result → result.2 = spent) used

theorem Charged.mono {prog : StoreProg (α × Budget)} {gets' bytes' : Nat}
    (charged : Charged base budget gets bytes prog) (moreGets : gets ≤ gets') (moreBytes : bytes ≤ bytes') :
    Charged base budget gets' bytes' prog := by
  intro used covered
  apply (charged used covered).weaken
  intro outcome after ⟨spent, kept, fewGets, fewBytes, same⟩
  exact ⟨spent, kept, by omega, by omega, same⟩

theorem Charged.bind {prog : StoreProg (α × Budget)} {next : α × Budget → StoreProg (β × Budget)}
    {moreGets moreBytes : Nat} (first : Charged base budget gets bytes prog)
    (rest : ∀ value spent, Charged base spent moreGets moreBytes (next (value, spent))) :
    Charged base budget (gets + moreGets) (bytes + moreBytes) (prog.bind next) := by
  intro used covered
  apply Prog.Follows.bind
  apply (first used covered).weaken
  intro outcome after ⟨spent, kept, fewGets, fewBytes, same⟩
  cases outcome with
  | error error => exact ⟨spent, kept, by omega, by omega, fun _ done => nomatch done⟩
  | ok result =>
      have paid : result.2 = spent := same result rfl
      subst paid
      apply (rest result.1 result.2 after kept).weaken
      intro final later ⟨total, kept', fewGets', fewBytes', same'⟩
      exact ⟨total, kept', by omega, by omega, same'⟩

/-- No GET comes after this one. -/
theorem Charged.last {prog : StoreProg (α × Budget)} {next : α × Budget → StoreProg (β × Budget)}
    (first : Charged base budget gets bytes prog)
    (rest : ∀ value spent, Charged base spent 0 0 (next (value, spent))) :
    Charged base budget gets bytes (prog.bind next) := first.bind rest

end

section

variable {env : Externals} {base budget : Budget} {reader : Reader}

def ObjectRef.tally (used : Budget) (reference : ObjectRef) : Budget := used.spend reference.length.toNat

/-- No more than this many GETs, and this large. -/
def Budget.Grown (budget : Budget) (gets bytes : Nat) (spent : Budget) : Prop :=
  spent.gets ≤ budget.gets + gets ∧ spent.bytes ≤ budget.bytes + bytes

theorem Budget.Grown.refl (budget : Budget) (gets bytes : Nat) : budget.Grown gets bytes budget :=
  ⟨Nat.le_add_right _ _, Nat.le_add_right _ _⟩

theorem Budget.Grown.mono {budget spent : Budget} {gets bytes moreGets moreBytes : Nat}
    (grown : budget.Grown gets bytes spent) (leGets : gets ≤ moreGets) (leBytes : bytes ≤ moreBytes) :
    budget.Grown moreGets moreBytes spent :=
  ⟨grown.1.trans (Nat.add_le_add_left leGets _), grown.2.trans (Nat.add_le_add_left leBytes _)⟩

theorem Budget.Grown.trans {budget spent final : Budget} {gets bytes moreGets moreBytes : Nat}
    (first : budget.Grown gets bytes spent) (second : spent.Grown moreGets moreBytes final) :
    budget.Grown (gets + moreGets) (bytes + moreBytes) final := by
  obtain ⟨fewGets, fewBytes⟩ := first
  obtain ⟨restGets, restBytes⟩ := second
  exact ⟨by omega, by omega⟩

/-- As `Charged`, of code that does not return its budget. -/
def Spends {α : Type} (base budget : Budget) (gets bytes : Nat) (prog : StoreProg α) : Prop :=
  ∀ used, Covered base budget used → prog.Follows (Prog.noting StoreOp.tally) (fun _ after =>
    ∃ spent, Covered base spent after ∧ budget.Grown gets bytes spent) used

variable {block : UInt64} {address : Address}

/-- A query inside a request, from what the request has used so far. -/
theorem Spends.answering_bind {α β : Type} {gets bytes : Nat} {code : StoreProg α} {next : α → RpcProg β}
    {post : Except RpcError β → Budget → Prop} (spends : Spends base .default gets bytes code)
    (stops : ∀ error spent after, Covered base spent after → spent.gets ≤ gets → spent.bytes ≤ bytes →
      post (.error error) after)
    (rest : ∀ value spent after, Covered base spent after → spent.gets ≤ gets → spent.bytes ≤ bytes →
      (next value).Follows (Prog.noting StoreOp.tally) post after) :
    ((answering code).bind next).Follows (Prog.noting StoreOp.tally) post base := by
  apply Prog.Follows.bind
  apply Prog.follows_relay
  apply (spends base (covered_default base)).weaken
  intro outcome after ⟨spent, kept, fewGets, fewBytes⟩
  have gets : spent.gets ≤ gets := fewGets.trans (Nat.le_of_eq (Nat.zero_add _))
  have bytes : spent.bytes ≤ bytes := fewBytes.trans (Nat.le_of_eq (Nat.zero_add _))
  cases outcome with
  | error error => exact stops _ spent after kept gets bytes
  | ok value => exact rest value spent after kept gets bytes

/-- A request that asks one query. -/
theorem Spends.limited {α β : Type} {gets bytes : Nat} {code : StoreProg α} {next : α → RpcProg β}
    (spends : Spends .default .default gets bytes code)
    (rest : ∀ value, ∃ result, next value = Prog.ofExcept result) :
    Limited StoreOp.tally ((answering code).bind next) := by
  apply spends.answering_bind
  · intro error spent after kept _ _
    exact kept.within
  · intro value spent after kept _ _
    obtain ⟨result, same⟩ := rest value
    rw [same]
    exact Prog.follows_ofExcept kept.within

end

/-! The Worker, which counts every GET of a request in one place. -/

def WorkerState.used (state : WorkerState) : Budget := ⟨state.gets, state.fetched⟩

section

variable {env : Externals} {state : WorkerState} {α β : Type}

/-- The code keeps the count of its request, and the count within the limit. -/
def Metered (state : WorkerState) (prog : WorkerProg (α × WorkerState)) : Prop :=
  state.used.Within → prog.Follows (Prog.noting BucketGet.tally) (fun outcome after =>
    after.Within ∧ ∀ result, outcome = .ok result → result.2.used = after) state.used

theorem Metered.bind {prog : WorkerProg (α × WorkerState)} {next : α × WorkerState → WorkerProg (β × WorkerState)}
    (first : Metered state prog) (rest : ∀ value later, Metered later (next (value, later))) :
    Metered state (prog.bind next) := by
  intro within
  apply Prog.Follows.bind
  apply (first within).weaken
  intro outcome after ⟨kept, same⟩
  cases outcome with
  | error error => exact ⟨kept, fun _ done => nomatch done⟩
  | ok result =>
      obtain rfl := same result rfl
      exact rest result.1 result.2 kept

/-- The same of code that reports errors in its result. -/
def Counted (state : WorkerState) (prog : WorkerProg (α × WorkerState)) : Prop :=
  state.used.Within → prog.Follows (Prog.noting BucketGet.tally) (fun outcome after =>
    ∃ result, outcome = .ok result ∧ result.2.used = after ∧ after.Within) state.used

theorem Counted.bind {prog : WorkerProg (α × WorkerState)} {next : α × WorkerState → WorkerProg β}
    {post : Except ArchiveError β → Budget → Prop} (first : Counted state prog) (within : state.used.Within)
    (rest : ∀ value later, later.used.Within →
      (next (value, later)).Follows (Prog.noting BucketGet.tally) post later.used) :
    (prog.bind next).Follows (Prog.noting BucketGet.tally) post state.used := by
  apply Prog.Follows.bind
  apply (first within).weaken
  intro outcome after ⟨result, done, counted, kept⟩
  subst done counted
  exact rest result.1 result.2 kept

end

/-! A head of as many runs as a head may list. All but the oldest share one root, whose
fences lead every lookup through three objects to a record of another key. -/

def deepKey : Bytes := [0, 0]

def deepPage : Bytes := dataMagic ++ [formatVersion] ++ be32 1 ++ recordBytes ⟨deepKey, 0, []⟩

end Fossil
