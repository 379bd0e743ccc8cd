import Fossil.Manifest
import Fossil.Archive

/-! The commits of one chain.

`Manifest.Step` is the abstract machine: an archive only ever appends the next
package or folds. A `History` is a run of that machine as a store records it: one
commit for each step, whose bytes encode the manifest and name the bytes before. -/

namespace Fossil

/-- What every commit raises: the last block, then the packages in the levels. -/
def Head.progress (head : Head) : UInt64 ×ₗ Nat :=
  toLex (head.number, ((head.levels.filterMap id).map (fun run => run.weight.toNat)).sum)

/-- Encoded heads decode to what was encoded. -/
def HeadsRoundTrip (env : Externals) : Prop :=
  ∀ head bytes, env.headToVec head = .ok bytes → env.headFromSlice bytes = .ok head

theorem ofTables_roundTrip {primitives : Primitives} {keccaks : List (Bytes × Nat)}
    {lines : List (Text × LineRecord)} {heads : List Head} (width : Nat)
    (apart : ∀ first ∈ heads, ∀ second ∈ heads,
      first.jsonBytes.take width = second.jsonBytes.take width → first = second) :
    HeadsRoundTrip (.ofTables primitives keccaks lines heads) := by
  intro head bytes encoded
  simp only [Externals.ofTables] at encoded ⊢
  split at encoded
  · next member =>
      cases encoded
      cases found : heads.find? (fun other => other.jsonBytes = head.jsonBytes) with
      | none => exact absurd (List.find?_eq_none.mp found head member) (by simp)
      | some other =>
          have same : other.jsonBytes = head.jsonBytes := by simpa using List.find?_some found
          rw [apart other (List.mem_of_find?_eq_some found) head member (congrArg (List.take width) same)]
  · cases encoded

section

variable {env : Externals} {accepts : Package → Prop}

namespace Manifest

/-- One step of an archive, by a call, with the piece it adds. -/
inductive Step (manifest : Manifest env accepts) : Call → Piece env → Manifest env accepts → Prop where
  | append (publication : Publication env accepts) (gate : PublicationGate)
      (continues : manifest.last.Continues publication) (room : manifest.l0.length < maxL0Backlog) :
      Step manifest (.publish publication.package gate) publication.piece
        (manifest.append publication continues room)
  | fold (chainId : UInt64) (planned : Plan (Piece env)) (merged : Piece env)
      (enough : l0Trigger ≤ manifest.l0.length)
      (made : plan Piece.weight manifest.levels = .ok planned)
      (merges : Merges (planned.inputs manifest.l0) planned.weight merged) :
      Step manifest (.compactOnce chainId) merged (manifest.fold enough made merges)

/-- What steps leave in place. -/
structure Grows (old new : Manifest env accepts) : Prop where
  publications : old.publications <+: new.publications
  folds : old.folds ≤ new.folds
  levels : old.folds = new.folds → old.levels = new.levels

theorem Grows.refl (manifest : Manifest env accepts) : manifest.Grows manifest :=
  ⟨List.prefix_rfl, Nat.le_refl _, fun _ => rfl⟩

theorem Grows.trans {first second third : Manifest env accepts} (one : first.Grows second)
    (two : second.Grows third) : first.Grows third := by
  refine ⟨one.publications.trans two.publications, one.folds.trans two.folds, ?_⟩
  intro same
  have early := one.folds
  have late := two.folds
  rw [one.levels (by omega), two.levels (by omega)]

theorem Step.grows {manifest next : Manifest env accepts} {call : Call} {piece : Piece env}
    (step : manifest.Step call piece next) : manifest.Grows next := by
  cases step with
  | append publication gate continues room =>
      exact ⟨List.prefix_append _ _, Nat.le_refl _, fun _ => rfl⟩
  | fold chainId planned merged enough made merges =>
      exact ⟨List.prefix_rfl, Nat.le_succ _, fun same => absurd same (Nat.ne_of_lt (Nat.lt_succ_self _))⟩

theorem Step.chainId {manifest next : Manifest env accepts} {call : Call} {piece : Piece env}
    (step : manifest.Step call piece next) :
    next.last.package.segment.chainId = manifest.last.package.segment.chainId := by
  cases step with
  | append publication gate continues room => exact continues.chainId.symm
  | fold => rfl

/-- The steps of a call determine what they lead to. -/
theorem Step.unique {manifest left right : Manifest env accepts} {call : Call} {piece other : Piece env}
    (one : manifest.Step call piece left) (two : manifest.Step call other right) :
    piece = other ∧ left = right := by
  cases one with
  | append publication gate continues room =>
      generalize same : publication.package = package at two
      cases two with
      | append publication' gate continues' room' =>
          have := Publication.eq_of_package same
          subst this
          exact ⟨rfl, rfl⟩
  | fold chainId planned merged enough made merges =>
      cases two with
      | fold _ planned' merged' enough' made' merges' =>
          have plans := made.symm.trans made'
          cases plans
          have := merges.unique merges'
          subst this
          exact ⟨rfl, rfl⟩

/-- The current pieces after a step: the new one, and otherwise old ones. -/
theorem Step.current {manifest next : Manifest env accepts} {call : Call} {piece : Piece env}
    (step : manifest.Step call piece next) :
    ∀ other ∈ next.current, other = piece ∨ other ∈ manifest.current := by
  intro other member
  cases step with
  | append publication gate continues room =>
      have tail : (manifest.append publication continues room).l0 = manifest.l0 ++ [publication.piece] :=
        l0_append continues room
      unfold Manifest.current manifestRuns at member ⊢
      rw [tail, ← List.append_assoc] at member
      rcases List.mem_append.mp member with old | new
      · exact .inr old
      · exact .inl (List.mem_singleton.mp new)
  | fold chainId planned merged enough made merges =>
      rcases manifest.folded.around made with ⟨older, splits, commits⟩
      have rest : (manifest.fold enough made merges).l0 = manifest.l0.drop l0Trigger := l0_fold enough made merges
      unfold Manifest.current at member ⊢
      rw [rest] at member
      rw [splits]
      replace member : other ∈ manifestRuns (planned.commit piece) (manifest.l0.drop l0Trigger) := member
      rw [commits _ _ merges] at member
      rcases List.mem_append.mp member with deep | near
      · exact .inr (List.mem_append_left _ deep)
      · rcases List.mem_cons.mp near with same | newer
        · exact .inl same
        · exact .inr (List.mem_append_right _ (List.mem_append_right _ newer))

theorem progress_head (manifest : Manifest env accepts) (parent : Option ObjectRef) :
    (manifest.head parent).progress = toLex (manifest.last.last.number, manifest.folds * 4) := by
  unfold Head.progress head
  rw [manifest.counts.total]
  rfl

/-- Appending raises the last block; folding raises the weight of the levels. -/
theorem Step.progress {manifest next : Manifest env accepts} {call : Call} {piece : Piece env}
    (step : manifest.Step call piece next) (parent parent' : Option ObjectRef) :
    (manifest.head parent).progress < (next.head parent').progress := by
  rw [progress_head, progress_head, Prod.Lex.toLex_lt_toLex]
  cases step with
  | append publication gate continues room =>
      left
      have follows := checkedSucc_eq_some.mp continues.number
      have spans := UInt64.le_iff_toNat_le.mp publication.piece.ordered
      rw [publication.start, publication.ends] at spans
      show manifest.last.last.number < publication.last.number
      rw [UInt64.lt_iff_toNat_lt]
      omega
  | fold chainId planned merged enough made merges =>
      right
      refine ⟨rfl, ?_⟩
      show manifest.folds * 4 < (manifest.folds + 1) * 4
      omega

/-- A manifest that ends at the same block has the same publications. -/
theorem Grows.publications_eq {old new : Manifest env accepts} (grows : old.Grows new)
    (same : new.last.last.number = old.last.last.number) : old.publications = new.publications := by
  rcases grows.publications with ⟨rest, whole⟩
  have after := new.publications_tiled
  rw [same] at after
  unfold pieces at after
  rw [← whole, List.map_append, List.map_append] at after
  rcases tiled_append.mp after with ⟨middle, older, newer⟩
  cases rest with
  | nil => rw [← whole, List.append_nil]
  | cons publication rest =>
      have member : old.last ∈ old.publications := List.mem_append_right _ (List.mem_singleton.mpr rfl)
      have here := (older.within.2 old.last.piece.run
        (List.mem_map_of_mem (List.mem_map_of_mem member))).2.2
      rw [old.last.ends] at here
      have there := (newer.within.2 publication.piece.run (by simp))
      omega

theorem Grows.last_eq {old new : Manifest env accepts} (same : old.publications = new.publications) :
    old.last = new.last := (List.append_inj' same rfl).2 |> List.singleton_inj.mp

end Manifest

/-- The reference of an immutable copy. -/
def copyRef (env : Externals) (bytes : Bytes) : ObjectRef :=
  ⟨env.sha256 bytes, UInt32.ofNat bytes.length⟩

/-- The commits of a chain, the manifest they lead to and the last committed bytes.
`durable` says what the store holds for good. -/
inductive History (env : Externals) (accepts : Package → Prop) (chainId : UInt64)
    (durable : Key → Bytes → Prop) : List (Commit Call) → Manifest env accepts → Bytes → Prop where
  | anchor {publication : Publication env accepts} {gate : PublicationGate} {bytes : Bytes}
      (begins : publication.Begins) (chain : publication.package.segment.chainId = chainId)
      (encoded : env.headToVec ((Manifest.single publication begins).head none) = .ok bytes)
      (small : bytes.length ≤ maxHead)
      (stored : ∀ object ∈ publication.piece.stored, durable object.1 object.2) :
      History env accepts chainId durable [⟨.publish publication.package gate, .head chainId, bytes⟩]
        (Manifest.single publication begins) bytes
  | step {commits : List (Commit Call)} {manifest next : Manifest env accepts} {call : Call}
      {piece : Piece env} {previous bytes : Bytes}
      (before : History env accepts chainId durable commits manifest previous)
      (moves : manifest.Step call piece next)
      (encoded : env.headToVec (next.head (some (copyRef env previous))) = .ok bytes)
      (small : bytes.length ≤ maxHead)
      (stored : ∀ object ∈ piece.stored, durable object.1 object.2)
      (copied : durable (.object (env.sha256 previous)) previous) :
      History env accepts chainId durable (commits ++ [⟨call, .head chainId, bytes⟩]) next bytes

namespace History

variable {chainId : UInt64} {durable durable' : Key → Bytes → Prop} {commits : List (Commit Call)}
  {manifest : Manifest env accepts} {bytes : Bytes}

/-- Later stores hold more. -/
theorem mono (history : History env accepts chainId durable commits manifest bytes)
    (more : ∀ key bytes, key.immutable → durable key bytes → durable' key bytes) :
    History env accepts chainId durable' commits manifest bytes := by
  induction history with
  | @anchor publication gate bytes begins chain encoded small stored =>
      refine .anchor begins chain encoded small ?_
      intro object member
      exact more _ _ (publication.piece.immutable object member) (stored object member)
  | @step commits manifest next call piece previous bytes before moves encoded small stored copied ih =>
      refine .step ih moves encoded small ?_ (more _ _ rfl copied)
      intro object member
      exact more _ _ (piece.immutable object member) (stored object member)

theorem commits_ne_nil (history : History env accepts chainId durable commits manifest bytes) :
    commits ≠ [] := by
  cases history <;> simp

theorem last (history : History env accepts chainId durable commits manifest bytes) :
    commits.getLast?.map Commit.bytes = some bytes := by
  cases history <;> simp

theorem head (history : History env accepts chainId durable commits manifest bytes) :
    (∃ parent, env.headToVec (manifest.head parent) = .ok bytes) ∧ bytes.length ≤ maxHead ∧
      manifest.last.package.segment.chainId = chainId := by
  induction history with
  | anchor begins chain encoded small stored => exact ⟨⟨_, encoded⟩, small, chain⟩
  | step before moves encoded small stored copied ih =>
      exact ⟨⟨_, encoded⟩, small, moves.chainId.trans ih.2.2⟩

theorem keys (history : History env accepts chainId durable commits manifest bytes) :
    ∀ commit ∈ commits, commit.key = .head chainId := by
  induction history with
  | anchor => simp
  | step before moves encoded small stored copied ih =>
      intro commit member
      rcases List.mem_append.mp member with old | new
      · exact ih commit old
      · rw [List.mem_singleton.mp new]

/-- Every object of the current runs is stored. -/
theorem stored (history : History env accepts chainId durable commits manifest bytes) :
    ∀ piece ∈ manifest.current, ∀ object ∈ piece.stored, durable object.1 object.2 := by
  induction history with
  | @anchor publication gate bytes begins chain encoded small stored =>
      intro piece member
      replace member : piece ∈ [publication.piece] := member
      rw [List.mem_singleton.mp member]
      exact stored
  | step before moves encoded small stored copied ih =>
      intro piece member
      rcases moves.current piece member with rfl | old
      · exact stored
      · exact ih piece old

/-- Every nonempty initial part of a history is a history. -/
theorem split (history : History env accepts chainId durable commits manifest bytes)
    {early : List (Commit Call)} (before : early <+: commits) (nonempty : early ≠ []) :
    ∃ old previous, History env accepts chainId durable early old previous ∧ old.Grows manifest := by
  induction history with
  | @anchor publication gate bytes begins chain encoded small stored =>
      have whole : early = [⟨.publish publication.package gate, .head chainId, bytes⟩] := by
        rcases List.prefix_cons_iff.mp before with nothing | ⟨rest, same, inside⟩
        · exact absurd nothing nonempty
        · rw [same, List.prefix_nil.mp inside]
      rw [whole]
      exact ⟨_, _, .anchor begins chain encoded small stored, .refl _⟩
  | step earlier moves encoded small stored copied ih =>
      rcases List.prefix_concat_iff.mp before with whole | inside
      · rw [whole]
        exact ⟨_, _, .step earlier moves encoded small stored copied, .refl _⟩
      · rcases ih inside with ⟨old, previous, history, grows⟩
        exact ⟨old, previous, history, grows.trans moves.grows⟩

/-- The commits determine the manifest. -/
theorem unique (history : History env accepts chainId durable commits manifest bytes)
    {other : Manifest env accepts} {bytes' : Bytes}
    (again : History env accepts chainId durable' commits other bytes') : manifest = other := by
  induction history generalizing other bytes' with
  | @anchor publication gate bytes begins chain encoded small stored =>
      generalize list : [(⟨.publish publication.package gate, .head chainId, bytes⟩ : Commit Call)] = whole
        at again
      cases again with
      | @anchor publication' gate' _ begins' chain' encoded' small' stored' =>
          simp only [List.cons.injEq, Commit.mk.injEq, Call.publish.injEq, and_true] at list
          have := Publication.eq_of_package list.1.1
          subst this
          rfl
      | step before =>
          have length := congrArg List.length list
          have positive := List.length_pos_iff.mpr before.commits_ne_nil
          simp only [List.length_singleton, List.length_append] at length
          omega
  | @step commits manifest next call piece previous bytes before moves encoded small stored copied ih =>
      generalize list : commits ++ [(⟨call, .head chainId, bytes⟩ : Commit Call)] = whole at again
      cases again with
      | anchor =>
          have length := congrArg List.length list
          have positive := List.length_pos_iff.mpr before.commits_ne_nil
          simp only [List.length_singleton, List.length_append] at length
          omega
      | @step commits' manifest' next' call' piece' previous' _ before' moves' =>
          rcases List.append_inj' list rfl with ⟨same, final⟩
          simp only [List.cons.injEq, Commit.mk.injEq, and_true, true_and] at final
          subst same
          have manifests := ih before'
          subst manifests
          rw [← final.1] at moves'
          exact (moves.unique moves').2

end History

/-- The bytes of a head decode to it. -/
theorem decode_head (codec : HeadsRoundTrip env) {manifest : Manifest env accepts}
    {parent : Option ObjectRef} {bytes : Bytes}
    (encoded : env.headToVec (manifest.head parent) = .ok bytes) :
    Head.decode env bytes = .ok (manifest.head parent) := by
  unfold Head.decode
  rw [codec _ _ encoded, ok_bind, manifest.head_valid]

/-- The first head is less far on than the second. -/
def Precedes (env : Externals) (earlier later : Bytes) : Prop :=
  ∃ before after, Head.decode env earlier = .ok before ∧ Head.decode env later = .ok after ∧
    before.progress < after.progress

theorem Precedes.trans {first second third : Bytes} (one : Precedes env first second)
    (two : Precedes env second third) : Precedes env first third := by
  rcases one with ⟨before, middle, decoded, between, less⟩
  rcases two with ⟨middle', after, between', decoded', more⟩
  rw [between] at between'
  cases between'
  exact ⟨before, after, decoded, decoded', less.trans more⟩

theorem Precedes.ne {earlier later : Bytes} (precedes : Precedes env earlier later) : earlier ≠ later := by
  rintro rfl
  rcases precedes with ⟨before, after, decoded, decoded', less⟩
  rw [decoded] at decoded'
  cases decoded'
  exact lt_irrefl _ less

/-- Each commit is further on than all before it. -/
theorem History.increasing {chainId : UInt64} {durable : Key → Bytes → Prop}
    {commits : List (Commit Call)} {manifest : Manifest env accepts} {bytes : Bytes}
    (codec : HeadsRoundTrip env)
    (history : History env accepts chainId durable commits manifest bytes) :
    (commits.map Commit.bytes).Pairwise (Precedes env) := by
  induction history with
  | anchor => exact List.pairwise_singleton _ _
  | @step commits manifest next call piece previous bytes before moves encoded small stored copied ih =>
      rcases before.head.1 with ⟨parent, encodedBefore⟩
      have advance : Precedes env previous bytes := ⟨_, _, decode_head codec encodedBefore,
        decode_head codec encoded, moves.progress _ _⟩
      rw [List.map_append, List.pairwise_append]
      refine ⟨ih, List.pairwise_singleton _ _, ?_⟩
      intro earlier member later last
      rw [List.map_singleton, List.mem_singleton] at last
      subst last
      -- the commit before is the last one, or it precedes the last one
      rcases List.eq_nil_or_concat (commits.map Commit.bytes) with nothing | ⟨front, final, whole⟩
      · rw [nothing] at member
        cases member
      · have same : final = previous := by
          have ends := before.last
          rw [← List.getLast?_map, whole, List.concat_eq_append, List.getLast?_concat] at ends
          exact Option.some.inj ends
        rw [whole, List.concat_eq_append] at member ih
        rcases List.mem_append.mp member with old | new
        · exact ((List.pairwise_append.mp ih).2.2 earlier old final (List.mem_singleton.mpr rfl)).trans
            (same ▸ advance)
        · rw [List.mem_singleton.mp new, same]
          exact advance

/-- A chain whose last commit has the bytes of an earlier one has not moved since. -/
theorem History.unmoved {chainId : UInt64} {durable durable' : Key → Bytes → Prop}
    {commits early : List (Commit Call)} {manifest old : Manifest env accepts} {bytes : Bytes}
    (codec : HeadsRoundTrip env)
    (history : History env accepts chainId durable commits manifest bytes)
    (before : History env accepts chainId durable' early old bytes) (longer : early <+: commits) :
    early = commits := by
  rcases longer with ⟨rest, whole⟩
  rcases List.eq_nil_or_concat rest with nothing | ⟨middle, final, shape⟩
  · rw [← whole, nothing, List.append_nil]
  · have ordered := history.increasing codec
    have ends := history.last
    have begun := before.last
    rw [← whole, shape, List.concat_eq_append, ← List.append_assoc] at ends ordered
    rw [List.getLast?_concat] at ends
    rw [List.map_append, List.pairwise_append] at ordered
    rcases Option.map_eq_some_iff.mp begun with ⟨commit, last, same⟩
    have precedes := ordered.2.2 commit.bytes
      (List.mem_map_of_mem (List.mem_append_left _ (List.mem_of_getLast? last))) final.bytes
      (by simp)
    rw [same, ← Option.some.inj ends] at precedes
    exact absurd rfl precedes.ne

/-- The package a commit appends, if it is a publication. -/
def Commit.package? (commit : Commit Call) : Option Package :=
  match commit.owner with
  | .publish package _ => some package
  | _ => none

/-- The packages of a history, in commit order. -/
theorem History.packages {chainId : UInt64} {durable : Key → Bytes → Prop}
    {commits : List (Commit Call)} {manifest : Manifest env accepts} {bytes : Bytes}
    (history : History env accepts chainId durable commits manifest bytes) :
    commits.filterMap Commit.package? = manifest.publications.map Publication.package := by
  induction history with
  | anchor => rfl
  | step before moves encoded small stored copied ih =>
      rw [List.filterMap_append, ih]
      cases moves with
      | append publication gate continues room =>
          show _ = (Manifest.publications _ ++ [publication]).map Publication.package
          rw [List.map_append]
          rfl
      | fold chainId planned merged enough made merges => exact List.append_nil _

end

end Fossil
