import Fossil.Ledger

/-! Levels of committed heads.

The level weights of a head are the digits of a counter in base eight, one unit for
each fold of four packages. A compaction adds one to the counter. Since the counter
and the packages determine the runs, all schedules that commit the same packages
meet again once every fold is made. -/

namespace Fossil

/-! What one compaction does to a head. -/

/-- The packages in the levels of a head. -/
def Head.folded (head : Head) : Nat := ((head.levels.filterMap id).map (fun run => run.weight.toNat)).sum

/-- The blocks of a run. -/
def Run.Spans (run : Run) (block : UInt64) : Prop := run.start ≤ block ∧ block ≤ run.last

theorem Counts.emptied {α : Type} {weightOf : α → UInt64} {level folds : Nat} {slots : List (Option α)}
    (counts : Counts weightOf level slots folds) (index : Nat) :
    slots[index]? = some none ↔ (Nat.digits 8 folds)[index]? = some 0 := by
  induction slots generalizing level folds index with
  | nil =>
      rw [show folds = 0 from counts]
      simp
  | cons slot rest ih =>
      rcases counts with ⟨nonzero, _, empty, deeper⟩
      rw [Nat.digits_def' (by decide) (Nat.pos_of_ne_zero nonzero)]
      cases index with
      | zero => simpa using empty
      | succ index => simpa using ih deeper index

/-- A run over tiled runs spans what they span. -/
theorem Tiled.spans {first bound : Nat} {inputs : List Run} (tiled : Tiled first inputs bound) {whole : Run}
    (covers : Tiled first [whole] bound) (block : UInt64) :
    whole.Spans block ↔ ∃ run ∈ inputs, run.Spans block := by
  have start : whole.start.toNat = first := covers.1
  have last : whole.last.toNat + 1 = bound := covers.2.2
  unfold Run.Spans
  simp only [UInt64.le_iff_toNat_le]
  constructor
  · intro spanned
    exact tiled.covers (by omega) (by omega)
  · rintro ⟨run, member, low, high⟩
    have inside := tiled.within.2 run member
    omega

section

variable {env : Externals} {accepts : Package → Prop} {backend : Backend} {faulty : StoreOp → Prop}
  {chainId : UInt64} {state : ArchiveSystem} {pool : ArchivePool}

namespace Manifest

variable (manifest : Manifest env accepts) (parent : Option ObjectRef)

end Manifest

/-- Nothing is left to fold: a compaction on its own returns false. -/
def Settled (env : Externals) (backend : Backend) (chainId : UInt64) (state : ArchiveSystem) : Prop :=
  ((compactOnce env chainId).execute (System.perform env.toPrimitives backend (.compactOnce chainId))
    state).1 = .ok false

theorem follows_any_bind {α β : Type} {σ : Type} {step : (op : StoreOp) → σ → op.Resp → σ → Prop}
    {post : Except Error β → σ → Prop} {prog : StoreProg α} {next : α → StoreProg β} {state : σ}
    (stops : ∀ error after, post (.error error) after)
    (rest : ∀ value after, (next value).Follows step post after) : (prog.bind next).Follows step post state := by
  apply Prog.Follows.bind
  apply Prog.follows_of_forall
  intro outcome after
  cases outcome with
  | ok value => exact rest value after
  | error error => exact stops error after

/-- The swap loop of a compaction returns true or fails. -/
theorem compactLoop_true {planned : Head} {levels : List (Option Run)} {attempts : Nat} {σ : Type}
    {step : (op : StoreOp) → σ → op.Resp → σ → Prop} {state : σ} :
    (compactLoop env chainId planned levels attempts).Follows step
      (fun outcome _ => outcome ≠ .ok false) state := by
  induction attempts generalizing state with
  | zero => exact nofun
  | succ attempts ih =>
      apply follows_any_bind (fun _ _ => nofun)
      intro found after
      rcases found with _ | ⟨bytes, current⟩
      · exact nofun
      · show Prog.Follows step _ (if _ then _ else _) after
        split
        · exact nofun
        · apply follows_any_bind (fun _ _ => nofun)
          intro swapped after
          cases swapped with
          | ok done => exact nofun
          | error error => exact ih

/-- A lone compaction goes by the head in place. -/
theorem compactOnce_alone {bytes : Bytes} {head : Head}
    (present : state.content (.head chainId) = some bytes) (small : bytes.length ≤ maxHead)
    (decoded : Head.decode env bytes = .ok head) (chain : head.chainId = chainId) :
    (compactOnce env chainId).Follows
      (fun op now reply after => (reply, after) = System.perform env.toPrimitives backend
        (.compactOnce chainId) now op)
      (fun outcome _ => outcome = .ok false ↔ head.l0.length < l0Trigger) state := by
  rcases Option.map_eq_some_iff.mp present with ⟨entry, found, same⟩
  have read : state.readMutableBounded env.toPrimitives backend (.head chainId) maxHead =
      .ok (some ⟨bytes, System.versionOf env.toPrimitives backend entry⟩) := by
    unfold System.readMutableBounded
    rw [found, ← same]
    exact if_neg (Nat.not_lt_of_le (same ▸ small))
  intro reply after performed
  have answer : reply = state.readMutableBounded env.toPrimitives backend (.head chainId) maxHead :=
    congrArg Prod.fst performed
  subst answer
  show Prog.Follows _ _ (Prog.bind _ _) after
  rw [read]
  show Prog.Follows _ _ (Prog.bind (Prog.bind (Prog.ofExcept (Head.decode env bytes)) _) _) after
  rw [decoded]
  show Prog.Follows _ _ (Prog.bind (if _ then _ else _) _) after
  rw [if_neg (not_not.mpr chain)]
  show Prog.Follows _ _ (if _ then _ else _) after
  split
  · next short => exact iff_of_true rfl short
  · next long =>
      -- every way on from here fails or returns true
      have other : ∀ error : Error, (Except.error error : Except Error Bool) = .ok false ↔
          head.l0.length < l0Trigger := fun error => iff_of_false nofun long
      apply follows_any_bind (fun error _ => other error)
      intro planned after
      show Prog.Follows _ _ (if _ then _ else _) after
      split
      · exact other _
      · apply follows_any_bind (fun error _ => other error)
        intro inputs after
        apply follows_any_bind (fun error _ => other error)
        intro started after
        apply follows_any_bind (fun error _ => other error)
        intro built after
        apply follows_any_bind (fun error _ => other error)
        intro finished after
        show Prog.Follows _ _ (if _ then _ else _) after
        split
        · exact other _
        · apply compactLoop_true.weaken
          intro outcome _ never
          exact iff_of_false never long

theorem settled_iff {bytes : Bytes} {head : Head}
    (present : state.content (.head chainId) = some bytes) (small : bytes.length ≤ maxHead)
    (decoded : Head.decode env bytes = .ok head) (chain : head.chainId = chainId) :
    Settled env backend chainId state ↔ head.l0.length < l0Trigger :=
  (compactOnce_alone present small decoded chain).execute (fun _ _ => rfl)

/-- The publications of manifests are determined by their packages. -/
theorem Manifest.publications_eq {left right : Manifest env accepts} (same : left.packages = right.packages) :
    left.publications = right.publications := by
  have injective : Function.Injective (@Publication.package env accepts) :=
    fun _ _ => Publication.eq_of_package
  exact List.map_injective_iff.mpr injective same

/-- With the same packages, and nothing left to fold, two manifests have one head. -/
theorem Manifest.confluent {left right : Manifest env accepts} (same : left.packages = right.packages)
    (settled : left.l0.length < l0Trigger) (settled' : right.l0.length < l0Trigger)
    (parent : Option ObjectRef) : left.head parent = right.head parent := by
  have publications := Manifest.publications_eq same
  have last := Manifest.Grows.last_eq publications
  have pieces : left.pieces = right.pieces := congrArg (List.map Publication.piece) publications
  have folds : left.folds = right.folds := by
    have one := left.l0_length
    have two := right.l0_length
    have low := left.folds_le
    have high := right.folds_le
    rw [pieces] at one low
    unfold l0Trigger at *
    omega
  have levels : left.levels = right.levels := by
    have folded : Folded right.pieces right.folds left.levels := by
      rw [← pieces, ← folds]
      exact left.folded
    exact folded.unique right.folded
  have l0 : left.l0 = right.l0 := by
    unfold Manifest.l0
    rw [pieces, folds]
  unfold Manifest.head
  rw [last, levels, l0]

/-- Two schedules that committed the same packages, and have nothing left to fold,
have heads that differ in their parents only. -/
theorem publication_confluent (codec : HeadsRoundTrip env) (lossless : env.toPrimitives.Lossless)
    {backend' : Backend} {faulty' : StoreOp → Prop} {other : ArchivePool}
    (reached : Pool.Reachable (System.world env.toPrimitives backend faulty) (Call.body env)
      (Writing accepts) System.empty pool)
    (reached' : Pool.Reachable (System.world env.toPrimitives backend' faulty') (Call.body env)
      (Writing accepts) System.empty other)
    (distinct : pool.state.HeadsDistinct env.toPrimitives backend)
    (distinct' : other.state.HeadsDistinct env.toPrimitives backend') {chainId : UInt64}
    (same : committed pool.state chainId = committed other.state chainId)
    (settled : Settled env backend chainId pool.state) (settled' : Settled env backend' chainId other.state)
    {bytes : Bytes} (present : pool.state.content (.head chainId) = some bytes) :
    ∃ bytes' head head', other.state.content (.head chainId) = some bytes' ∧
      Head.decode env bytes = .ok head ∧ Head.decode env bytes' = .ok head' ∧
      { head with parent := none } = { head' with parent := none } ∧ head.l0.length ≤ 3 := by
  have inv := (writing_sound codec lossless reached distinct).1
  have inv' := (writing_sound codec lossless reached' distinct').1
  rcases inv.current present with ⟨manifest, history⟩
  have packages : committed pool.state chainId = manifest.packages := history.packages
  have nonempty : other.state.commits chainId ≠ [] := by
    intro nothing
    have none : committed other.state chainId = [] := congrArg (List.filterMap Commit.package?) nothing
    rw [← same, packages] at none
    simp [Manifest.packages, Manifest.publications] at none
  rcases inv'.history chainId nonempty with ⟨manifest', bytes', history'⟩
  have packages' : committed other.state chainId = manifest'.packages := history'.packages
  have present' : other.state.content (.head chainId) = some bytes' := by
    rw [inv'.heads chainId, history'.last]
  rcases history.decoded codec with ⟨parent, decoded⟩
  rcases history'.decoded codec with ⟨parent', decoded'⟩
  have short := (settled_iff present history.head.2.1 decoded history.head.2.2).mp settled
  have short' := (settled_iff present' history'.head.2.1 decoded' history'.head.2.2).mp settled'
  refine ⟨bytes', _, _, present', decoded, decoded', ?_, Nat.le_of_lt_succ short⟩
  have together : manifest.packages = manifest'.packages := by rw [← packages, same, packages']
  exact Manifest.confluent together (by simpa [Manifest.head] using short)
    (by simpa [Manifest.head] using short') none

end

/-! The chain of packages without events. -/

/-- The two committed publications alone. -/
def chainTwo : ArchivePool := chainLaunch (chainLaunch ⟨System.empty, []⟩ 0 8) 1 9

theorem chainTwo_reachable {faulty : StoreOp → Prop} :
    Pool.Reachable (System.world chainEnv.toPrimitives .memory faulty) (Call.body chainEnv)
      (Writing (fun _ => True)) System.empty chainTwo :=
  chainLaunch_reachable (chainLaunch_reachable .start trivial 8) trivial 9

theorem chainTwo_commits :
    (chainTwo.state.commits 1).map Commit.bytes = [firstHead.jsonBytes, secondHead.jsonBytes] ∧
      committed chainTwo.state 1 = [chainPackage 0, chainPackage 1] := by
  have log : chainTwo.state.log.map Commit.row = chainRows := by decide +kernel
  exact commits_of_rows log 1

/-- The head in place is the second one wherever two were committed. -/
theorem secondHead_present {pool : ArchivePool}
    (reached : Pool.Reachable (System.world chainEnv.toPrimitives .memory (fun _ => True))
      (Call.body chainEnv) (Writing (fun _ => True)) System.empty pool)
    (commits : (pool.state.commits 1).map Commit.bytes = [firstHead.jsonBytes, secondHead.jsonBytes]) :
    pool.state.content (.head 1) = some secondHead.jsonBytes := by
  have inv := (writing_sound chainEnv_roundTrip chainEnv_lossless reached
    (fun filesystem => nomatch filesystem)).1
  rw [inv.heads 1, ← List.getLast?_map, commits]
  rfl

theorem chainPool_content : chainPool.state.content (.head 1) = some secondHead.jsonBytes :=
  secondHead_present chainPool_reachable chainPool_commits.1

theorem secondHead_decoded :
    Head.decode chainEnv secondHead.jsonBytes = .ok secondHead ∧ secondHead.jsonBytes.length ≤ maxHead := by
  decide +kernel

theorem secondHead_settled {state : ArchiveSystem}
    (present : state.content (.head 1) = some secondHead.jsonBytes) : Settled chainEnv .memory 1 state :=
  (settled_iff present secondHead_decoded.2 secondHead_decoded.1 rfl).mpr (by decide)

theorem publication_confluent_chain :
    ∃ bytes head head', chainTwo.state.content (.head 1) = some bytes ∧
      Head.decode chainEnv secondHead.jsonBytes = .ok head ∧ Head.decode chainEnv bytes = .ok head' ∧
      { head with parent := none } = { head' with parent := none } ∧ head.l0.length ≤ 3 :=
  publication_confluent chainEnv_roundTrip chainEnv_lossless (@chainPool_reachable (fun _ => True))
    (@chainTwo_reachable (fun _ => True)) (fun filesystem => nomatch filesystem)
    (fun filesystem => nomatch filesystem) (chainPool_commits.2.trans chainTwo_commits.2.symm)
    (secondHead_settled chainPool_content)
    (secondHead_settled (secondHead_present chainTwo_reachable chainTwo_commits.1)) chainPool_content

end Fossil
