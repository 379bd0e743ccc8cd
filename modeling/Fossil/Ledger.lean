import Fossil.Writers

/-! The chain of packages and heads that writers leave behind.

Whatever publishers and compactors do to one store, the heads they commit form one
line, each naming the one before, and the packages they commit one contiguous
chain. The levels of a head count the folds made so far, so the head is determined
by its packages once nothing is left to fold. -/

namespace Fossil

section

variable {env : Externals} {accepts : Package → Prop} {backend : Backend} {faulty : StoreOp → Prop}
  {chainId : UInt64} {state : ArchiveSystem} {pool : ArchivePool}

theorem Inv.current (inv : Inv env accepts backend state) {bytes : Bytes}
    (present : state.content (.head chainId) = some bytes) :
    ∃ manifest : Manifest env accepts,
      History env accepts chainId (Holds state) (state.commits chainId) manifest bytes := by
  rcases Option.map_eq_some_iff.mp present with ⟨entry, found, rfl⟩
  exact inv.observed found

/-! The line of heads. -/

/-- One head names another as its parent, whose bytes are stored under that name. -/
def Succeeds (env : Externals) (durable : Key → Bytes → Prop) (previous next : Bytes) : Prop :=
  ∃ head reference, Head.decode env next = .ok head ∧ head.parent = some reference ∧
    reference.digest = env.sha256 previous ∧ reference.length.toNat = previous.length ∧
    durable (.object reference.digest) previous

/-- A head that names no parent. -/
def Original (env : Externals) (bytes : Bytes) : Prop :=
  ∃ head, Head.decode env bytes = .ok head ∧ head.parent = none

theorem copyRef_length {bytes : Bytes} (small : bytes.length ≤ maxHead) :
    (copyRef env bytes).length.toNat = bytes.length := by
  have bound : bytes.length < 2 ^ 32 := Nat.lt_of_le_of_lt small (by decide)
  exact toNat_ofNat_of_lt bound

namespace History

variable {durable : Key → Bytes → Prop} {commits : List (Commit Call)} {manifest : Manifest env accepts}
  {bytes : Bytes}

theorem decoded (codec : HeadsRoundTrip env)
    (history : History env accepts chainId durable commits manifest bytes) :
    ∃ parent, Head.decode env bytes = .ok (manifest.head parent) := by
  rcases history.head.1 with ⟨parent, encoded⟩
  exact ⟨parent, decode_head codec encoded⟩

theorem original (codec : HeadsRoundTrip env)
    (history : History env accepts chainId durable commits manifest bytes) :
    ∀ first ∈ (commits.map Commit.bytes).head?, Original env first := by
  induction history with
  | anchor begins chain encoded small stored =>
      intro first isFirst
      cases isFirst
      exact ⟨_, decode_head codec encoded, rfl⟩
  | step before moves encoded small stored copied ih =>
      intro first isFirst
      apply ih first
      rwa [List.map_append, List.head?_append_of_ne_nil _ (by simpa using before.commits_ne_nil)] at isFirst

theorem succession (codec : HeadsRoundTrip env)
    (history : History env accepts chainId durable commits manifest bytes) :
    (commits.map Commit.bytes).IsChain (Succeeds env durable) := by
  induction history with
  | anchor => exact .singleton _
  | @step commits manifest next call piece previous bytes before moves encoded small stored copied ih =>
      rw [List.map_append]
      apply List.isChain_append.mpr
      refine ⟨ih, .singleton _, ?_⟩
      intro last isLast first isFirst
      cases isFirst
      have same : last = previous := by
        have ends := before.last
        rw [← List.getLast?_map] at ends
        exact Option.some.inj (isLast.symm.trans ends)
      subst same
      exact ⟨_, _, decode_head codec encoded, rfl, rfl, copyRef_length before.head.2.1, copied⟩

end History

/-- The stored bytes of the parent a head names. -/
def parentBytes (env : Externals) (state : ArchiveSystem) (bytes : Bytes) : Option Bytes := do
  let head ← (Head.decode env bytes).toOption
  let reference ← head.parent
  state.content (.object reference.digest)

theorem parentBytes_original {bytes : Bytes} (original : Original env bytes) :
    parentBytes env state bytes = none := by
  rcases original with ⟨head, decoded, noParent⟩
  unfold parentBytes
  rw [decoded]
  show head.parent.bind _ = none
  rw [noParent]
  rfl

theorem parentBytes_succeeds {previous bytes : Bytes}
    (succeeds : Succeeds env (Holds state) previous bytes) :
    parentBytes env state bytes = some previous := by
  rcases succeeds with ⟨head, reference, decoded, named, _, _, stored⟩
  unfold parentBytes
  rw [decoded]
  show head.parent.bind _ = some previous
  rw [named]
  exact stored

/-- Follow the parents of a head, at most `fuel` heads in all. -/
def followParents (env : Externals) (state : ArchiveSystem) : Nat → Bytes → List Bytes
  | 0, _ => []
  | fuel + 1, bytes => bytes :: (parentBytes env state bytes).elim [] (followParents env state fuel)

/-- From the last of a line of heads the parents lead back through all of it. -/
theorem followParents_line {early : List Bytes} {bytes : Bytes}
    (first : ∀ head ∈ (early ++ [bytes]).head?, Original env head)
    (line : (early ++ [bytes]).IsChain (Succeeds env (Holds state))) {fuel : Nat}
    (enough : early.length < fuel) :
    followParents env state fuel bytes = (early ++ [bytes]).reverse := by
  induction early using List.reverseRecOn generalizing bytes fuel with
  | nil =>
      cases fuel with
      | zero => exact absurd enough (Nat.not_lt_zero _)
      | succ fuel =>
          rw [followParents, parentBytes_original (first bytes rfl)]
          rfl
  | append_singleton early previous ih =>
      rcases List.isChain_append.mp line with ⟨before, _, joins⟩
      rw [List.length_append, List.length_singleton] at enough
      cases fuel with
      | zero => exact absurd enough (Nat.not_lt_zero _)
      | succ fuel =>
          have rest := ih (fun head found => first head (by
            rw [List.head?_append, found]
            rfl)) before (show early.length < fuel by omega)
          rw [followParents, parentBytes_succeeds (joins previous (by simp) bytes rfl), Option.elim_some,
            rest]
          exact List.reverse_concat.symm

/-- The committed heads of a chain form one line that ends at the head in place. -/
theorem heads_linear (codec : HeadsRoundTrip env) (lossless : env.toPrimitives.Lossless)
    (reached : Pool.Reachable (System.world env.toPrimitives backend faulty) (Call.body env)
      (Writing accepts) System.empty pool)
    (distinct : pool.state.HeadsDistinct env.toPrimitives backend) (chainId : UInt64) :
    let heads := (pool.state.commits chainId).map Commit.bytes
    pool.state.content (.head chainId) = heads.getLast? ∧
      (∀ first ∈ heads.head?, Original env first) ∧
      heads.IsChain (Succeeds env (Holds pool.state)) ∧ heads.Nodup ∧
      ∀ early bytes, early ++ [bytes] <+: heads → ∀ fuel, early.length < fuel →
        followParents env pool.state fuel bytes = (early ++ [bytes]).reverse := by
  have inv := (writing_sound codec lossless reached distinct).1
  intro heads
  have last : pool.state.content (.head chainId) = heads.getLast? := by
    rw [inv.heads chainId, List.getLast?_map]
  by_cases nothing : pool.state.commits chainId = []
  · have empty : heads = [] := by rw [← List.map_nil, ← nothing]
    rw [last, empty]
    refine ⟨rfl, by simp, .nil, .nil, ?_⟩
    intro early bytes before
    exact absurd (List.prefix_nil.mp before) (by simp)
  · rcases inv.history chainId nothing with ⟨manifest, bytes, history⟩
    have first := history.original codec
    have line := history.succession codec
    refine ⟨last, first, line, (history.increasing codec).imp (fun precedes => precedes.ne), ?_⟩
    intro early bytes before fuel enough
    rcases before with ⟨rest, split⟩
    have whole : (pool.state.commits chainId).map Commit.bytes = early ++ [bytes] ++ rest := split.symm
    rw [whole] at line first
    apply followParents_line _ (List.isChain_append.mp line).1 enough
    intro head isFirst
    apply first head
    rw [List.head?_append, isFirst]
    rfl

end

/-- From the second head of the chain of packages without events back to the first. -/
theorem heads_linear_chain :
    followParents chainEnv chainPool.state 2 secondHead.jsonBytes =
      [secondHead.jsonBytes, firstHead.jsonBytes] := by
  have linear := heads_linear chainEnv_roundTrip chainEnv_lossless (@chainPool_reachable (fun _ => True))
    (fun filesystem => nomatch filesystem) 1
  apply linear.2.2.2.2 [firstHead.jsonBytes] secondHead.jsonBytes _ 2 (by decide)
  rw [chainPool_commits.1]
  exact List.prefix_rfl

/-! The chain of packages. -/

section

variable {env : Externals} {accepts : Package → Prop} {backend : Backend} {faulty : StoreOp → Prop}
  {chainId : UInt64} {state : ArchiveSystem} {pool : ArchivePool}

/-- The package of a block-zero anchor. -/
def Package.Begins (package : Package) : Prop :=
  package.mode = .anchor ∧ ∃ first, package.segment.blocks.head? = some first ∧ first.number = 0 ∧
    first.hash = package.segment.genesisHash ∧ first.parentHash = Fixed.zero

/-- The next package starts at the block after the last one of the previous. -/
def Package.Continues (previous next : Package) : Prop :=
  ∃ last first, previous.segment.blocks.getLast? = some last ∧ next.segment.blocks.head? = some first ∧
    first.number.toNat = last.number.toNat + 1 ∧ first.parentHash = last.hash

/-- A head ends where a package ends. -/
def Package.Ends (package : Package) (head : Head) : Prop :=
  ∃ last, package.segment.blocks.getLast? = some last ∧ head.number = last.number ∧
    head.hash = last.hash ∧ head.stateRoot = last.stateRoot ∧ head.inputSha256 = package.inputSha256

/-- One run covers all blocks of a package. -/
def Package.CoveredBy (package : Package) (runs : List Run) : Prop :=
  ∃ first last, package.segment.blocks.head? = some first ∧ package.segment.blocks.getLast? = some last ∧
    ∃ run ∈ runs, run.start ≤ first.number ∧ last.number ≤ run.last

/-- One piece covers all blocks of another. -/
def Piece.Covers (outer inner : Piece env) : Prop :=
  outer.run.start ≤ inner.run.start ∧ inner.run.last ≤ outer.run.last

/-- The fold of some pieces covers each of them. -/
theorem Merges.covers {inputs : List (Piece env)} {weight : UInt64} {merged piece : Piece env}
    (merges : Merges inputs weight merged) {first bound : Nat}
    (tiled : Tiled first (inputs.map Piece.run) bound) (member : piece ∈ inputs) : merged.Covers piece := by
  have nonempty : inputs.map Piece.run ≠ [] := by
    rw [ne_eq, List.map_eq_nil_iff]
    exact List.ne_nil_of_mem member
  have whole := tiled.folded nonempty weight merged.built
  rw [← merges.run] at whole
  have inside := tiled.within.2 piece.run (List.mem_map_of_mem member)
  have start := whole.1
  have last : merged.run.last.toNat + 1 = bound := whole.2.2
  constructor
  · apply UInt64.le_iff_toNat_le.mpr
    omega
  · apply UInt64.le_iff_toNat_le.mpr
    omega

/-- Folding drops no piece: each stays covered by one of the current ones. -/
theorem Folded.covered {pieces : List (Piece env)} {folds : Nat} {levels : List (Option (Piece env))}
    (folded : Folded pieces folds levels) {bound : Nat} (tiled : Tiled 0 (pieces.map Piece.run) bound) :
    ∀ piece ∈ pieces, ∃ outer ∈ manifestRuns levels (pieces.drop (l0Trigger * folds)), outer.Covers piece := by
  induction folded with
  | start =>
      intro piece member
      exact ⟨piece, by simpa [manifestRuns] using member, le_refl _, le_refl _⟩
  | @fold folds levels planned merged before enough made merges ih =>
      intro piece member
      rcases ih piece member with ⟨outer, current, covers⟩
      rcases before.around made with ⟨older, splits, commits⟩
      have whole := before.tiled tiled
      rw [splits, List.map_append, List.map_append, drop_drop_trigger] at whole
      rw [splits, drop_drop_trigger] at current
      rw [commits _ _ merges]
      rcases tiled_append.mp whole with ⟨low, _, rest⟩
      rcases tiled_append.mp rest with ⟨high, consumed, _⟩
      rcases List.mem_append.mp current with old | near
      · exact ⟨outer, List.mem_append_left _ old, covers⟩
      · rcases List.mem_append.mp near with input | newer
        · have around := merges.covers consumed input
          exact ⟨merged, List.mem_append_right _ List.mem_cons_self, around.1.trans covers.1,
            covers.2.trans around.2⟩
        · exact ⟨outer, List.mem_append_right _ (List.mem_cons_of_mem _ newer), covers⟩

namespace Manifest

variable (manifest : Manifest env accepts)

/-- The packages of a manifest, in order. -/
def packages : List Package := manifest.publications.map Publication.package

theorem packages_begin : ∀ first ∈ manifest.packages.head?, first.Begins := by
  intro first isFirst
  rcases Option.map_eq_some_iff.mp ((List.head?_map).symm.trans isFirst) with ⟨publication, front, rfl⟩
  rcases manifest.begins publication front with ⟨mode, number, hash, parent⟩
  exact ⟨mode, publication.first, publication.front, number, hash, parent⟩

theorem packages_chain : manifest.packages.IsChain Package.Continues := by
  apply List.isChain_map_of_isChain Publication.package _ manifest.chain
  intro previous next continues
  exact ⟨previous.last, next.first, previous.back, next.front,
    (checkedSucc_eq_some.mp continues.number).symm, continues.parent⟩

theorem packages_nodup : manifest.packages.Nodup := by
  have apart := manifest.publications_tiled.pairwise
  rw [List.pairwise_map] at apart
  unfold pieces at apart
  rw [List.pairwise_map] at apart
  apply List.pairwise_map.mpr
  apply apart.imp
  intro older newer before same
  have equal := Publication.eq_of_package same
  subst equal
  exact absurd (lt_of_le_of_lt older.piece.ordered before) (lt_irrefl _)

theorem packages_end (parent : Option ObjectRef) :
    ∀ last ∈ manifest.packages.getLast?, last.Ends (manifest.head parent) := by
  intro last isLast
  have whole : manifest.packages.getLast? = some manifest.last.package := by
    simp [packages, publications]
  rw [whole] at isLast
  cases isLast
  exact ⟨manifest.last.last, manifest.last.back, rfl, rfl, rfl, rfl⟩

theorem packages_covered (parent : Option ObjectRef) :
    ∀ package ∈ manifest.packages, package.CoveredBy (manifest.head parent).runs := by
  intro package member
  rcases List.mem_map.mp member with ⟨publication, isPublication, rfl⟩
  rcases manifest.folded.covered manifest.publications_tiled publication.piece
    (List.mem_map_of_mem isPublication) with ⟨outer, current, start, last⟩
  rw [publication.start] at start
  rw [publication.ends] at last
  refine ⟨publication.first, publication.last, publication.front, publication.back, outer.run, ?_, start, last⟩
  rw [manifest.head_runs]
  exact List.mem_map_of_mem current

end Manifest

/-- What the chain of a store says of the head in place. -/
structure Records (packages : List Package) (head : Head) : Prop where
  ends : ∀ last ∈ packages.getLast?, last.Ends head
  covered : ∀ package ∈ packages, package.CoveredBy head.runs

/-- The packages committed to a chain start with an anchor and follow one another,
none of them twice; the head ends with the last and covers them all; and a publication
that returned has its package among them. -/
theorem packages_append_once (codec : HeadsRoundTrip env) (lossless : env.toPrimitives.Lossless)
    (identified : ∀ left right, accepts left → accepts right →
      left.inputSha256 = right.inputSha256 → left = right)
    (reached : Pool.Reachable (System.world env.toPrimitives backend faulty) (Call.body env)
      (Writing accepts) System.empty pool)
    (distinct : pool.state.HeadsDistinct env.toPrimitives backend) :
    (∀ chainId, let packages := committed pool.state chainId
      (∀ first ∈ packages.head?, first.Begins) ∧ packages.IsChain Package.Continues ∧ packages.Nodup ∧
      (packages = [] ↔ pool.state.content (.head chainId) = none) ∧
      ∀ bytes, pool.state.content (.head chainId) = some bytes →
        ∃ head, Head.decode env bytes = .ok head ∧ Records packages head) ∧
    ∀ package gate, (⟨.publish package gate, .ret ()⟩ : Task Call Call.Out StoreOp StoreOp.Resp Error) ∈
      pool.tasks → package ∈ committed pool.state package.segment.chainId := by
  have sound := writing_sound codec lossless reached distinct
  refine ⟨?_, ?_⟩
  · intro chainId packages
    by_cases nothing : pool.state.commits chainId = []
    · have empty : packages = [] := congrArg (List.filterMap Commit.package?) nothing
      have noHead : pool.state.content (.head chainId) = none := by
        rw [sound.1.heads chainId, nothing]
        rfl
      rw [empty, noHead]
      exact ⟨by simp, .nil, .nil, by simp, by simp⟩
    · rcases sound.1.history chainId nothing with ⟨manifest, bytes, history⟩
      have same : packages = manifest.packages := history.packages
      have present : pool.state.content (.head chainId) = some bytes := by
        rw [sound.1.heads chainId, history.last]
      rcases history.decoded codec with ⟨parent, decoded⟩
      rw [same, present]
      refine ⟨manifest.packages_begin, manifest.packages_chain, manifest.packages_nodup, ?_, ?_⟩
      · simp [Manifest.packages, Manifest.publications]
      · intro found isFound
        cases isFound
        exact ⟨_, decoded, manifest.packages_end parent, manifest.packages_covered parent⟩
  · intro package gate done
    rcases sound.finished done rfl with ⟨accepted, other, member, accepted', origin⟩
    rw [← identified other package accepted' accepted origin.input]
    rwa [origin.chainId]

end

/-- The packages of the chain. -/
def chainPackages : List Package := [chainPackage 0, chainPackage 1, chainPackage 2]

theorem chainPackages_identified : ∀ left ∈ chainPackages, ∀ right ∈ chainPackages,
    left.inputSha256 = right.inputSha256 → left = right := by
  decide +kernel

theorem chainPackages_append_once :
    committed chainPool.state 1 = [chainPackage 0, chainPackage 1] ∧
      [chainPackage 0, chainPackage 1].IsChain Package.Continues ∧
      ∃ bytes head, chainPool.state.content (.head 1) = some bytes ∧ Head.decode chainEnv bytes = .ok head ∧
        Records [chainPackage 0, chainPackage 1] head := by
  have reached : Pool.Reachable (System.world chainEnv.toPrimitives .memory (fun _ => True))
      (Call.body chainEnv) (Writing (· ∈ chainPackages)) System.empty chainPool :=
    chainLaunch_reachable (chainLaunch_reachable (chainLaunch_reachable .start (by decide +kernel) 8)
      (by decide +kernel) 9) (by decide +kernel) 8
  have once := (packages_append_once chainEnv_roundTrip chainEnv_lossless
    (fun left right inLeft inRight => chainPackages_identified left inLeft right inRight) reached
    (fun filesystem => nomatch filesystem)).1 1
  have packages := chainPool_commits.2
  rw [packages] at once
  cases content : chainPool.state.content (.head 1) with
  | none => exact absurd (once.2.2.2.1.mpr content) (by simp)
  | some bytes =>
      rcases once.2.2.2.2 bytes content with ⟨head, decoded, records⟩
      exact ⟨packages, once.2.1, bytes, head, rfl, decoded, records⟩

end Fossil
