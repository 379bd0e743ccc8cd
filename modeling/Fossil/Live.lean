import Fossil.Garbage
import Fossil.Pieces

/-! The live set of garbage collection.

A walk over the runs of a head adds the objects each run lists and the paths of
its shards, and skips a run whose root is in the set already. Everything here is
about one state of the store, so reads have fixed replies. -/

namespace Fossil

theorem mem_extendLive {live keys : List Key} {key : Key} :
    key ∈ extendLive live keys ↔ key ∈ live ∨ key ∈ keys := by
  induction keys generalizing live with
  | nil => simp [extendLive]
  | cons first rest ih =>
      have step : extendLive live (first :: rest) =
          extendLive (if first ∈ live then live else first :: live) rest := rfl
      rw [step, ih, List.mem_cons]
      split
      · next known =>
          constructor
          · rintro (old | later)
            · exact .inl old
            · exact .inr (.inr later)
          · rintro (old | rfl | later)
            · exact .inl old
            · exact .inl known
            · exact .inr later
      · rw [List.mem_cons]
        tauto

/-- The key of the root object of a run. -/
def Run.rootKey (run : Run) : Key := .object run.root.digest

theorem mem_shardKeysOf {run : Run} {key : Key} :
    key ∈ shardKeysOf run ↔ ∃ kind index, index.toNat < run.shards.toNat ∧
      key = .summary run.root.digest run.shards kind index := by
  unfold shardKeysOf
  constructor
  · intro member
    rcases List.mem_flatMap.mp member with ⟨kind, _, inside⟩
    rcases List.mem_map.mp inside with ⟨index, bound, rfl⟩
    have small := List.mem_range.mp bound
    have width := run.shards.toNat_lt
    refine ⟨kind, UInt32.ofNat index, ?_, rfl⟩
    rw [toNat_ofNat_of_lt (small.trans width)]
    exact small
  · rintro ⟨kind, index, bound, rfl⟩
    refine List.mem_flatMap.mpr ⟨kind, by cases kind <;> simp, ?_⟩
    exact List.mem_map.mpr ⟨index.toNat, List.mem_range.mpr bound, by rw [UInt32.ofNat_toNat]⟩

/-! What one walk adds. -/

/-- The walk over runs: skipped ones change nothing, walked ones add their keys. -/
inductive Walks (listed : Run → Result (List Key)) : List Run → List Key → List Run → List Key → Prop where
  | done (live : List Key) : Walks listed [] live [] live
  | skip {run : Run} {runs walked : List Run} {live final : List Key} (seen : run.rootKey ∈ live)
      (rest : Walks listed runs live walked final) : Walks listed (run :: runs) live walked final
  | walk {run : Run} {runs walked : List Run} {live final keys : List Key} (fresh : run.rootKey ∉ live)
      (found : listed run = .ok keys)
      (rest : Walks listed runs (extendLive (run.rootKey :: live) (keys ++ shardKeysOf run)) walked final) :
      Walks listed (run :: runs) live (run :: walked) final

/-- A key that a walk over the run adds. -/
def Run.Adds (listed : Run → Result (List Key)) (run : Run) (key : Key) : Prop :=
  key = run.rootKey ∨ (∃ keys, listed run = .ok keys ∧ key ∈ keys) ∨ key ∈ shardKeysOf run

namespace Walks

variable {listed : Run → Result (List Key)} {runs walked : List Run} {live final : List Key}

theorem mem_walk {run : Run} {keys : List Key} {key : Key} (found : listed run = .ok keys) :
    key ∈ extendLive (run.rootKey :: live) (keys ++ shardKeysOf run) ↔
      key ∈ live ∨ run.Adds listed key := by
  rw [mem_extendLive, List.mem_cons, List.mem_append]
  unfold Run.Adds
  constructor
  · rintro ((root | old) | inside | shard)
    · exact .inr (.inl root)
    · exact .inl old
    · exact .inr (.inr (.inl ⟨keys, found, inside⟩))
    · exact .inr (.inr (.inr shard))
  · rintro (old | root | ⟨keys', found', inside⟩ | shard)
    · exact .inl (.inr old)
    · exact .inl (.inl root)
    · cases found.symm.trans found'
      exact .inr (.inl inside)
    · exact .inr (.inr shard)

theorem mem_final (walks : Walks listed runs live walked final) {key : Key} :
    key ∈ final ↔ key ∈ live ∨ ∃ run ∈ walked, run.Adds listed key := by
  induction walks with
  | done live => simp
  | skip seen rest ih => exact ih
  | walk fresh found rest ih =>
      rw [ih, mem_walk found, List.exists_mem_cons_iff, or_assoc]

theorem subset (walks : Walks listed runs live walked final) : ∀ run ∈ walked, run ∈ runs := by
  induction walks with
  | done live => exact fun run member => member
  | skip seen rest ih => exact fun run member => List.mem_cons_of_mem _ (ih run member)
  | walk fresh found rest ih =>
      intro run member
      rcases List.mem_cons.mp member with rfl | later
      · exact List.mem_cons_self
      · exact List.mem_cons_of_mem _ (ih run later)

/-- Walked runs had not been seen. -/
theorem fresh (walks : Walks listed runs live walked final) : ∀ run ∈ walked, run.rootKey ∉ live := by
  induction walks with
  | done live => exact fun run member => nomatch member
  | skip seen rest ih => exact ih
  | walk new found rest ih =>
      intro run member
      rcases List.mem_cons.mp member with rfl | later
      · exact new
      · intro old
        exact ih run later (mem_extendLive.mpr (.inl (List.mem_cons_of_mem _ old)))

theorem rootKey_inj {first second : Run} (same : first.rootKey = second.rootKey) :
    first.root.digest = second.root.digest := Key.object.inj same

/-- The run with a digest that is walked is the first with it, and no walked run
before it listed its root. -/
theorem first (walks : Walks listed runs live walked final) {run : Run} (member : run ∈ walked) :
    runs.find? (fun other => other.root.digest = run.root.digest) = some run ∧
      ∀ before ∈ runs.takeWhile (fun other => other.root.digest ≠ run.root.digest), before ∈ walked →
        ∀ keys, listed before = .ok keys → run.rootKey ∉ keys := by
  induction walks with
  | done live => cases member
  | @skip other runs walked live final seen rest ih =>
      have differs : other.root.digest ≠ run.root.digest := by
        intro same
        apply rest.fresh run member
        rw [Run.rootKey, ← same]
        exact seen
      rcases ih member with ⟨found, clear⟩
      refine ⟨by simp [differs, found], ?_⟩
      intro before inside present
      rw [List.takeWhile_cons_of_pos (by simpa using differs)] at inside
      rcases List.mem_cons.mp inside with rfl | later
      · exact absurd seen (rest.fresh before present)
      · exact clear before later present
  | @walk other runs walked live final keys new found rest ih =>
      rcases List.mem_cons.mp member with rfl | later
      · refine ⟨by simp, ?_⟩
        intro before inside
        simp at inside
      · have unseen := rest.fresh run later
        have differs : other.root.digest ≠ run.root.digest := by
          intro same
          apply unseen
          rw [mem_walk found]
          exact .inr (.inl (by rw [Run.rootKey, Run.rootKey, same]))
        rcases ih later with ⟨first, clear⟩
        refine ⟨by simp [differs, first], ?_⟩
        intro before inside present keys' found' listing
        rw [List.takeWhile_cons_of_pos (by simpa using differs)] at inside
        rcases List.mem_cons.mp inside with rfl | earlier
        · exact unseen ((mem_walk found).mpr (.inr (.inr (.inl ⟨keys', found', listing⟩))))
        · rcases List.mem_cons.mp present with rfl | walked'
          · exact unseen ((mem_walk found).mpr (.inr (.inr (.inl ⟨keys', found', listing⟩))))
          · exact clear before earlier walked' keys' found' listing

/-- The first run with a digest is walked, unless its root was there or a run before
it lists it. -/
theorem reaches (walks : Walks listed runs live walked final) {first : Run}
    (unseen : first.rootKey ∉ live)
    (found : runs.find? (fun other => other.root.digest = first.root.digest) = some first)
    (clear : ∀ before ∈ runs.takeWhile (fun other => other.root.digest ≠ first.root.digest),
      ∀ keys, listed before = .ok keys → first.rootKey ∉ keys) : first ∈ walked := by
  induction walks with
  | done live => cases found
  | @skip other runs walked live final seen rest ih =>
      have differs : other.root.digest ≠ first.root.digest := by
        intro same
        apply unseen
        rw [Run.rootKey, ← same]
        exact seen
      refine ih unseen (by simpa [differs] using found) ?_
      intro before inside
      apply clear before
      rw [List.takeWhile_cons_of_pos (by simpa using differs)]
      exact List.mem_cons_of_mem _ inside
  | @walk other runs walked live final keys new listing rest ih =>
      by_cases same : other.root.digest = first.root.digest
      · have here : other = first := by simpa [same] using found
        rw [here]
        exact List.mem_cons_self
      · have inFront : other ∈ (other :: runs).takeWhile
            (fun other => other.root.digest ≠ first.root.digest) := by
          rw [List.takeWhile_cons_of_pos (by simpa using same)]
          exact List.mem_cons_self
        refine List.mem_cons_of_mem _ (ih ?_ (by simpa [same] using found) ?_)
        · rw [mem_walk listing]
          rintro (old | root | ⟨keys', listing', inside⟩ | shard)
          · exact unseen old
          · exact same (rootKey_inj root).symm
          · exact clear other inFront keys' listing' inside
          · rcases mem_shardKeysOf.mp shard with ⟨_, _, _, wrong⟩
            cases wrong
        · intro before inside
          apply clear before
          rw [List.takeWhile_cons_of_pos (by simpa using same)]
          exact List.mem_cons_of_mem _ inside

/-- A walk whose runs can all be listed goes through. -/
theorem exists_of_listed (runs : List Run) (live : List Key)
    (listing : ∀ run ∈ runs, ∃ keys, listed run = .ok keys) :
    ∃ walked final, Walks listed runs live walked final := by
  induction runs generalizing live with
  | nil => exact ⟨[], live, .done live⟩
  | cons run runs ih =>
      have later := fun live => ih live (fun other member => listing other (List.mem_cons_of_mem _ member))
      by_cases seen : run.rootKey ∈ live
      · rcases later live with ⟨walked, final, walks⟩
        exact ⟨walked, final, .skip seen walks⟩
      · rcases listing run List.mem_cons_self with ⟨keys, found⟩
        rcases later (extendLive (run.rootKey :: live) (keys ++ shardKeysOf run)) with ⟨walked, final, walks⟩
        exact ⟨run :: walked, final, .walk seen found walks⟩

/-- A walk over roots that are all known adds nothing. -/
theorem eq_of_known (walks : Walks listed runs live walked final) (known : ∀ run ∈ runs, run.rootKey ∈ live) :
    final = live := by
  induction walks with
  | done live => rfl
  | skip seen rest ih => exact ih (fun run member => known run (List.mem_cons_of_mem _ member))
  | walk fresh found rest ih => exact absurd (known _ List.mem_cons_self) fresh

end Walks

/-- Runs that a walk cannot confuse: those with one root list the same objects and have
as many shards, and no run lists the root of another. -/
structure Separate (listed : Run → Result (List Key)) (runs : List Run) : Prop where
  listing : ∀ run ∈ runs, ∃ keys, listed run = .ok keys
  same : ∀ first ∈ runs, ∀ second ∈ runs, first.root.digest = second.root.digest →
    listed first = listed second ∧ first.shards = second.shards
  roots : ∀ first ∈ runs, ∀ second ∈ runs, ∀ keys, listed first = .ok keys → second.rootKey ∉ keys

theorem Separate.congr {listed listed' : Run → Result (List Key)} {runs : List Run}
    (separate : Separate listed runs) (same : ∀ run ∈ runs, listed' run = listed run) :
    Separate listed' runs := by
  refine ⟨?_, ?_, ?_⟩
  · intro run member
    rw [same run member]
    exact separate.listing run member
  · intro first inFirst second inSecond
    rw [same first inFirst, same second inSecond]
    exact separate.same first inFirst second inSecond
  · intro first inFirst second inSecond
    rw [same first inFirst]
    exact separate.roots first inFirst second inSecond

/-- A first walk over separate runs adds the keys of each. -/
theorem Separate.walk {listed : Run → Result (List Key)} {runs walked : List Run} {final : List Key}
    (separate : Separate listed runs) (walks : Walks listed runs [] walked final) (key : Key) :
    key ∈ final ↔ ∃ run ∈ runs, run.Adds listed key := by
  rw [walks.mem_final]
  constructor
  · rintro (nothing | ⟨run, member, adds⟩)
    · cases nothing
    · exact ⟨run, walks.subset run member, adds⟩
  · rintro ⟨run, member, adds⟩
    cases found : runs.find? (fun other => other.root.digest = run.root.digest) with
    | none => exact absurd (List.find?_eq_none.mp found run member) (by simp)
    | some first =>
        have digest : first.root.digest = run.root.digest := by simpa using List.find?_some found
        have isFirst := List.mem_of_find?_eq_some found
        rw [← digest] at found
        have inWalked : first ∈ walked := walks.reaches List.not_mem_nil found
          (fun before inside => separate.roots before ((List.takeWhile_prefix _).subset inside) first isFirst)
        rcases separate.same first isFirst run member digest with ⟨listing, shards⟩
        refine .inr ⟨first, inWalked, ?_⟩
        unfold Run.Adds shardKeysOf Run.rootKey at adds ⊢
        rw [listing, digest, shards]
        exact adds

/-! The walk as a program. -/

section

variable (env : Externals) (replies : (op : StoreOp) → op.Resp)

/-- The keys of the objects below the root of a run. -/
def Run.listed (run : Run) : Result (List Key) := do
  let (root, bytes) ← run.input
  let reader ← RunReader.decode env.toPrimitives root bytes
  let refs ← ((withFetch env.toPrimitives (reader.objectRefs env.toPrimitives)).run replies).2
  .ok (refs.map (fun reference => .object reference.digest))

variable {env replies}

theorem Run.listed_eq_ok {run : Run} {keys : List Key} :
    run.listed env replies = .ok keys ↔ ∃ bytes reader refs, hexDecode run.rootBytes = .ok bytes ∧
      RunReader.decode env.toPrimitives run.root bytes = .ok reader ∧
      ((withFetch env.toPrimitives (reader.objectRefs env.toPrimitives)).run replies).2 = .ok refs ∧
      keys = refs.map (fun reference => .object reference.digest) := by
  unfold Run.listed Run.input
  simp only [bind_eq_ok]
  constructor
  · rintro ⟨input, ⟨bytes, decoded, same⟩, reader, opened, refs, walked, listing⟩
    cases same
    exact ⟨bytes, reader, refs, decoded, opened, walked, (Except.ok.inj listing).symm⟩
  · rintro ⟨bytes, reader, refs, decoded, opened, walked, rfl⟩
    exact ⟨(run.root, bytes), ⟨bytes, decoded, rfl⟩, reader, opened, refs, walked, rfl⟩

theorem walks_of_reachableRuns {runs : List Run} {live final : List Key}
    (done : ((reachableRuns env runs live).run replies).2 = .ok final) :
    ∃ walked, Walks (Run.listed env replies) runs live walked final := by
  induction runs generalizing live with
  | nil =>
      cases done
      exact ⟨[], .done _⟩
  | cons run runs ih =>
      unfold reachableRuns at done
      rcases Prog.run_bind_eq_ok.mp done with ⟨⟨root, bytes⟩, input, rest⟩
      rw [Prog.liftM_eq, Prog.run_ofExcept] at input
      rcases bind_eq_ok.mp input with ⟨bytes', decoded, same⟩
      cases same
      dsimp only at rest
      split at rest
      · next seen =>
          rcases ih rest with ⟨walked, walks⟩
          exact ⟨walked, .skip seen walks⟩
      · next fresh =>
          rcases Prog.run_bind_eq_ok.mp rest with ⟨reader, opened, rest⟩
          rw [Prog.liftM_eq, Prog.run_ofExcept] at opened
          rcases Prog.run_bind_eq_ok.mp rest with ⟨refs, listing, rest⟩
          rcases ih rest with ⟨walked, walks⟩
          have found : run.listed env replies = .ok (refs.map (fun reference => .object reference.digest)) :=
            Run.listed_eq_ok.mpr ⟨bytes, reader, refs, decoded, opened, listing, rfl⟩
          exact ⟨run :: walked, .walk fresh found walks⟩

theorem reachableRuns_of_walks {runs walked : List Run} {live final : List Key}
    (walks : Walks (Run.listed env replies) runs live walked final)
    (inputs : ∀ run ∈ runs, ∃ bytes, hexDecode run.rootBytes = .ok bytes) :
    ((reachableRuns env runs live).run replies).2 = .ok final := by
  induction walks with
  | done live => rfl
  | @skip run runs walked live final seen rest ih =>
      rcases inputs run List.mem_cons_self with ⟨bytes, decoded⟩
      have later := ih (fun other member => inputs other (List.mem_cons_of_mem _ member))
      unfold reachableRuns Run.input
      rw [decoded, ok_bind, Prog.liftM_eq, Prog.ofExcept_ok, Prog.bind_eq, Prog.ret_bind]
      have known : Key.object run.root.digest ∈ live := seen
      dsimp only
      rw [if_pos known]
      exact later
  | @walk run runs walked live final keys fresh found rest ih =>
      rcases Run.listed_eq_ok.mp found with ⟨bytes, reader, refs, decoded, opened, listing, rfl⟩
      have later := ih (fun other member => inputs other (List.mem_cons_of_mem _ member))
      unfold reachableRuns Run.input
      rw [decoded, ok_bind, Prog.liftM_eq, Prog.ofExcept_ok, Prog.bind_eq, Prog.ret_bind]
      have unseen : ¬ Key.object run.root.digest ∈ live := fresh
      dsimp only
      rw [if_neg unseen, opened, Prog.liftM_eq, Prog.ofExcept_ok, Prog.bind_eq, Prog.ret_bind]
      exact Prog.run_bind_eq_ok.mpr ⟨refs, listing, later⟩

variable (env replies) in
/-- The digests of the newest copies of a head, as far as they are stored. -/
def headCopies : Nat → Option ObjectRef → List Hash32
  | 0, _ => []
  | _ + 1, none => []
  | keep + 1, some reference =>
      match ((getBounded (.object reference.digest) maxHead).run replies).2 with
      | .error _ => []
      | .ok bytes =>
          reference.digest :: headCopies keep (match env.headFromSlice bytes with
            | .ok head => head.parent
            | .error _ => none)

/-- The copies that are kept were read. -/
theorem headCopies_read {keep : Nat} {parent : Option ObjectRef} {digest : Hash32}
    (member : digest ∈ headCopies env replies keep parent) :
    ∃ bytes, replies (.getBounded (.object digest) maxHead) = .ok bytes := by
  induction keep generalizing parent with
  | zero => cases member
  | succ keep ih =>
      cases parent with
      | none => cases member
      | some reference =>
          unfold headCopies at member
          rw [run_getBounded] at member
          cases read : replies (.getBounded (.object reference.digest) maxHead) with
          | error error =>
              rw [read] at member
              cases member
          | ok bytes =>
              rw [read] at member
              rcases List.mem_cons.mp member with rfl | older
              · exact ⟨bytes, read⟩
              · exact ih older

/-- Copies are the same where the kept ones read the same and others at most fail. -/
theorem headCopies_congr {replies' : (op : StoreOp) → op.Resp} {keep : Nat} {parent : Option ObjectRef}
    (kept : ∀ digest ∈ headCopies env replies keep parent,
      replies' (.getBounded (.object digest) maxHead) = replies (.getBounded (.object digest) maxHead))
    (others : ∀ digest, replies' (.getBounded (.object digest) maxHead) =
        replies (.getBounded (.object digest) maxHead) ∨
      ∃ error, replies' (.getBounded (.object digest) maxHead) = .error error) :
    headCopies env replies' keep parent = headCopies env replies keep parent := by
  induction keep generalizing parent with
  | zero => rfl
  | succ keep ih =>
      cases parent with
      | none => rfl
      | some reference =>
          unfold headCopies at kept ⊢
          rw [run_getBounded] at kept
          rw [run_getBounded, run_getBounded]
          cases read : replies (.getBounded (.object reference.digest) maxHead) with
          | error error =>
              rcases others reference.digest with same | ⟨failed, fails⟩
              · rw [same, read]
              · rw [fails]
          | ok bytes =>
              rw [read] at kept
              rw [kept reference.digest List.mem_cons_self, read]
              exact congrArg _ (ih (fun digest member => kept digest (List.mem_cons_of_mem _ member)))

theorem keepParents_run (keep : Nat) (parent : Option ObjectRef) (live : List Key) :
    ∃ final, ((keepParents env keep parent live).run replies).2 = .ok final ∧
      ∀ key, key ∈ final ↔ key ∈ live ∨ ∃ digest ∈ headCopies env replies keep parent, key = .object digest := by
  induction keep generalizing parent live with
  | zero => exact ⟨live, rfl, by simp [headCopies]⟩
  | succ keep ih =>
      cases parent with
      | none => exact ⟨live, rfl, by simp [headCopies]⟩
      | some reference =>
          unfold keepParents headCopies
          rw [Prog.bind_eq, Prog.run_bind, Prog.run_attempt]
          cases ((getBounded (.object reference.digest) maxHead).run replies).2 with
          | error error => exact ⟨live, rfl, by simp⟩
          | ok bytes =>
              rcases ih (match env.headFromSlice bytes with
                | .ok head => head.parent
                | .error _ => none) (extendLive live [.object reference.digest]) with ⟨final, done, members⟩
              refine ⟨final, done, ?_⟩
              intro key
              rw [members, mem_extendLive, List.exists_mem_cons_iff, List.mem_singleton, or_assoc]

theorem reachable_run {head : Head} {keepHeads : Nat} {live final : List Key}
    (done : ((reachable env head keepHeads live).run replies).2 = .ok final) :
    ∃ walked middle, Walks (Run.listed env replies) head.runs live walked middle ∧
      ∀ key, key ∈ final ↔ key ∈ middle ∨
        ∃ digest ∈ headCopies env replies keepHeads head.parent, key = .object digest := by
  unfold reachable at done
  rcases Prog.run_bind_eq_ok.mp done with ⟨middle, runs, parents⟩
  rcases walks_of_reachableRuns runs with ⟨walked, walks⟩
  rcases keepParents_run keepHeads head.parent middle with ⟨final', done', members⟩
  cases parents.symm.trans done'
  exact ⟨walked, middle, walks, members⟩

theorem reachable_of_walks {head : Head} {keepHeads : Nat} {walked : List Run} {live middle : List Key}
    (walks : Walks (Run.listed env replies) head.runs live walked middle)
    (inputs : ∀ run ∈ head.runs, ∃ bytes, hexDecode run.rootBytes = .ok bytes) :
    ∃ final, ((reachable env head keepHeads live).run replies).2 = .ok final ∧
      ∀ key, key ∈ final ↔ key ∈ middle ∨
        ∃ digest ∈ headCopies env replies keepHeads head.parent, key = .object digest := by
  rcases keepParents_run keepHeads head.parent middle with ⟨final, done, members⟩
  exact ⟨final, Prog.run_bind_eq_ok.mpr ⟨middle, reachableRuns_of_walks walks inputs, done⟩, members⟩

/-- The walks of one head twice over: the second adds nothing. -/
theorem Separate.reachable {head : Head} (keepHeads : Nat)
    (separate : Separate (Run.listed env replies) head.runs) :
    ∃ live final, ((Fossil.reachable env head keepHeads []).run replies).2 = .ok live ∧
      ((Fossil.reachable env head keepHeads live).run replies).2 = .ok final ∧
      ∀ key, key ∈ final ↔ (∃ run ∈ head.runs, run.Adds (Run.listed env replies) key) ∨
        ∃ digest ∈ headCopies env replies keepHeads head.parent, key = .object digest := by
  have inputs : ∀ run ∈ head.runs, ∃ bytes, hexDecode run.rootBytes = .ok bytes := by
    intro run member
    rcases separate.listing run member with ⟨keys, found⟩
    rcases Run.listed_eq_ok.mp found with ⟨bytes, _, _, decoded, _⟩
    exact ⟨bytes, decoded⟩
  rcases Walks.exists_of_listed head.runs [] separate.listing with ⟨walked, middle, walks⟩
  rcases @reachable_of_walks env replies head keepHeads _ _ _ walks inputs with ⟨live, done, members⟩
  rcases Walks.exists_of_listed head.runs live separate.listing with ⟨walked', middle', walks'⟩
  rcases @reachable_of_walks env replies head keepHeads _ _ _ walks' inputs with ⟨final, done', members'⟩
  have known : ∀ run ∈ head.runs, run.rootKey ∈ live := fun run member =>
    (members _).mpr (.inl ((separate.walk walks _).mpr ⟨run, member, .inl rfl⟩))
  refine ⟨live, final, done, done', ?_⟩
  intro key
  rw [members', walks'.eq_of_known known, members, separate.walk walks, or_assoc, or_self]

/-! Two heads, one set. -/

variable (env replies) in
/-- Everything a reader of the head can ask for is in the set, and so are the newest
copies of the head and whatever a walk of it alone would add. -/
structure Retains (head : Head) (keepHeads : Nat) (live : List Key) : Prop where
  runs : ∀ run ∈ head.runs, ∀ key, run.Adds (Run.listed env replies) key → key ∈ live
  copies : ∀ digest ∈ headCopies env replies keepHeads head.parent, .object digest ∈ live
  alone : ∀ keys, ((reachable env head keepHeads []).run replies).2 = .ok keys → ∀ key ∈ keys, key ∈ live

variable (env replies) in
/-- A run of the head is not lost to the check for its root: if the root is in the set,
so are the shard paths of the run; if not, the first run of the head with that root has
as many shards, and no run before that one lists the root as an object of its own. -/
def Attended (live : List Key) (head : Head) (run : Run) : Prop :=
  (run.rootKey ∈ live → ∀ key ∈ shardKeysOf run, key ∈ live) ∧
  (run.rootKey ∉ live →
    (∃ first, head.runs.find? (fun other => other.root.digest = run.root.digest) = some first ∧
      first.shards = run.shards) ∧
    ∀ before ∈ head.runs.takeWhile (fun other => other.root.digest ≠ run.root.digest),
      ∀ keys, before.listed env replies = .ok keys → run.rootKey ∉ keys)

variable (env) in
/-- Different root bytes have different digests. -/
def RootsDistinct (runs : List Run) : Prop :=
  ∀ first ∈ runs, ∀ second ∈ runs, ∀ left right, hexDecode first.rootBytes = .ok left →
    hexDecode second.rootBytes = .ok right → env.sha256 left = env.sha256 right → left = right

/-- What decoding a head has checked of each run. -/
theorem checkRuns_mem {primitives : Primitives} {runs : List Run} {start final : UInt64}
    (checked : checkRuns primitives runs start = .ok final) {run : Run} (member : run ∈ runs) :
    ∃ bytes, hexDecode run.rootBytes = .ok bytes ∧ bytes.length = run.root.length.toNat ∧
      primitives.sha256 bytes = run.root.digest ∧ run.shards ≠ 0 := by
  induction runs generalizing start with
  | nil => cases member
  | cons first rest ih =>
      rcases bind_eq_ok.mp checked with ⟨bytes, decoded, guarded⟩
      rcases guard_eq_ok.mp guarded with ⟨valid, later⟩
      simp only [not_or, not_not, Bool.not_eq_true', Bool.not_eq_false] at valid
      rcases List.mem_cons.mp member with rfl | inRest
      · refine ⟨bytes, decoded, valid.2.2.2.1, valid.2.2.2.2, ?_⟩
        intro zero
        have power := valid.2.2.1
        rw [zero] at power
        exact absurd power (by decide)
      · exact ih later inRest

/-- Runs with one root digest list the same objects. -/
theorem listed_eq {older newer : Head} {olderBytes newerBytes : Bytes}
    (decodedOlder : Head.decode env olderBytes = .ok older)
    (decodedNewer : Head.decode env newerBytes = .ok newer)
    (distinct : RootsDistinct env (older.runs ++ newer.runs)) {first second : Run}
    (inFirst : first ∈ older.runs ++ newer.runs) (inSecond : second ∈ older.runs ++ newer.runs)
    (same : first.root.digest = second.root.digest) :
    first.listed env replies = second.listed env replies := by
  have checked : ∀ run ∈ older.runs ++ newer.runs, ∃ bytes, hexDecode run.rootBytes = .ok bytes ∧
      bytes.length = run.root.length.toNat ∧ env.sha256 bytes = run.root.digest ∧ run.shards ≠ 0 := by
    intro run member
    rcases List.mem_append.mp member with inOlder | inNewer
    · exact checkRuns_mem (decode_checks decodedOlder).1 inOlder
    · exact checkRuns_mem (decode_checks decodedNewer).1 inNewer
  rcases checked first inFirst with ⟨left, decodedLeft, lengthLeft, digestLeft, _⟩
  rcases checked second inSecond with ⟨right, decodedRight, lengthRight, digestRight, _⟩
  have bytes := distinct first inFirst second inSecond left right decodedLeft decodedRight
    (by rw [digestLeft, digestRight, same])
  have length : first.root.length = second.root.length :=
    UInt32.toNat_inj.mp (by rw [← lengthLeft, ← lengthRight, bytes])
  have root : first.root = second.root := congrArg₂ ObjectRef.mk same length
  unfold Run.listed Run.input
  rw [decodedLeft, decodedRight, bytes, root]

/-- Shard paths come from walked runs only. -/
theorem Walks.shard_mem {runs walked : List Run} {live final : List Key} {run : Run} {key : Key}
    (walks : Walks (Run.listed env replies) runs live walked final) (shard : key ∈ shardKeysOf run)
    (member : key ∈ final) :
    key ∈ live ∨ ∃ owner ∈ walked, owner.root.digest = run.root.digest ∧ owner.shards = run.shards := by
  rcases mem_shardKeysOf.mp shard with ⟨kind, index, _, rfl⟩
  rcases walks.mem_final.mp member with old | ⟨owner, inWalked, root | ⟨keys, listing, inside⟩ | path⟩
  · exact .inl old
  · cases root
  · rcases Run.listed_eq_ok.mp listing with ⟨_, _, refs, _, _, _, rfl⟩
    rcases List.mem_map.mp inside with ⟨_, _, wrong⟩
    cases wrong
  · rcases mem_shardKeysOf.mp path with ⟨_, _, _, same⟩
    rcases Key.summary.inj same with ⟨digest, shards, _⟩
    exact .inr ⟨owner, inWalked, digest.symm, shards.symm⟩

theorem mem_takeWhile_of_find? {α : Type} {items : List α} {keep sought : α → Bool} {item found : α}
    (inside : item ∈ items.takeWhile keep) (holds : sought item = true)
    (first : items.find? sought = some found) : found ∈ items.takeWhile keep := by
  rw [← List.takeWhile_append_dropWhile (p := keep) (l := items), List.find?_append] at first
  cases front : (items.takeWhile keep).find? sought with
  | none => exact absurd holds (by simpa using List.find?_eq_none.mp front item inside)
  | some other =>
      rw [front] at first
      cases first
      exact List.mem_of_find?_eq_some front

/-- After the walks of two heads everything of the second is in the set exactly if no
run of it was lost to the check for its root. -/
theorem reachable_retains_iff {older newer : Head} {olderBytes newerBytes : Bytes} {keepHeads : Nat}
    {live final : List Key} (decodedOlder : Head.decode env olderBytes = .ok older)
    (decodedNewer : Head.decode env newerBytes = .ok newer)
    (distinct : RootsDistinct env (older.runs ++ newer.runs))
    (first : ((reachable env older keepHeads []).run replies).2 = .ok live)
    (second : ((reachable env newer keepHeads live).run replies).2 = .ok final) :
    Retains env replies newer keepHeads final ↔
      ∀ run ∈ newer.runs, Attended env replies live newer run := by
  rcases reachable_run first with ⟨walked, middle, walks, members⟩
  rcases reachable_run second with ⟨walked', middle', walks', members'⟩
  have inFinal : ∀ key, key ∈ live → key ∈ final := fun key old =>
    (members' key).mpr (.inl (walks'.mem_final.mpr (.inl old)))
  have adds : ∀ owner ∈ walked, ∀ key, owner.Adds (Run.listed env replies) key → key ∈ live :=
    fun owner member key added => (members key).mpr (.inl (walks.mem_final.mpr (.inr ⟨owner, member, added⟩)))
  have adds' : ∀ owner ∈ walked', ∀ key, owner.Adds (Run.listed env replies) key → key ∈ final :=
    fun owner member key added => (members' key).mpr (.inl (walks'.mem_final.mpr (.inr ⟨owner, member, added⟩)))
  have isOlder : ∀ owner ∈ walked, owner ∈ older.runs ++ newer.runs :=
    fun owner member => List.mem_append_left _ (walks.subset owner member)
  have isNewer : ∀ owner ∈ walked', owner ∈ older.runs ++ newer.runs :=
    fun owner member => List.mem_append_right _ (walks'.subset owner member)
  -- a shard path in the first set belongs to a run walked for the first head
  have owned : ∀ run key, key ∈ shardKeysOf run → key ∈ live →
      ∃ owner ∈ walked, owner.root.digest = run.root.digest ∧ owner.shards = run.shards := by
    intro run key shard member
    rcases (members key).mp member with inRuns | ⟨digest, _, rfl⟩
    · exact (walks.shard_mem shard inRuns).resolve_left (List.not_mem_nil)
    · rcases mem_shardKeysOf.mp shard with ⟨_, _, _, wrong⟩
      cases wrong
  have owned' : ∀ run key, key ∈ shardKeysOf run → key ∈ final → key ∈ live ∨
      ∃ owner ∈ walked', owner.root.digest = run.root.digest ∧ owner.shards = run.shards := by
    intro run key shard member
    rcases (members' key).mp member with inRuns | ⟨digest, _, rfl⟩
    · exact walks'.shard_mem shard inRuns
    · rcases mem_shardKeysOf.mp shard with ⟨_, _, _, wrong⟩
      cases wrong
  have sharded : ∀ run ∈ newer.runs, .summary run.root.digest run.shards .address 0 ∈ shardKeysOf run := by
    intro run member
    rcases checkRuns_mem (decode_checks decodedNewer).1 member with ⟨_, _, _, _, positive⟩
    refine mem_shardKeysOf.mpr ⟨.address, 0, ?_, rfl⟩
    exact Nat.pos_of_ne_zero (fun zero => positive (UInt32.toNat_inj.mp zero))
  have shards_eq : ∀ {owner run : Run}, owner.root.digest = run.root.digest → owner.shards = run.shards →
      shardKeysOf owner = shardKeysOf run := by
    intro owner run digest shards
    unfold shardKeysOf
    rw [digest, shards]
  constructor
  · intro retains run member
    have kept := retains.runs run member _ (.inr (.inr (sharded run member)))
    refine ⟨?_, ?_⟩
    · intro seen key shard
      rcases owned' run _ (sharded run member) kept with old | ⟨owner, inWalked, digest, _⟩
      · rcases owned run _ (sharded run member) old with ⟨owner, inWalked, digest, shards⟩
        exact adds owner inWalked key (.inr (.inr (shards_eq digest shards ▸ shard)))
      · refine absurd ?_ (walks'.fresh owner inWalked)
        rw [Run.rootKey, digest]
        exact seen
    · intro unseen
      -- its shards are in the set, so a run with its root was walked for the second head
      have walkedFor : ∀ other ∈ newer.runs, (∃ owner ∈ walked, owner.root.digest = other.root.digest) ∨
          ∃ owner ∈ walked', owner.root.digest = other.root.digest ∧ owner.shards = other.shards := by
        intro other inside
        have kept' := retains.runs other inside _ (.inr (.inr (sharded other inside)))
        rcases owned' other _ (sharded other inside) kept' with old | found
        · rcases owned other _ (sharded other inside) old with ⟨owner, inWalked, digest, _⟩
          exact .inl ⟨owner, inWalked, digest⟩
        · exact .inr found
      rcases walkedFor run member with ⟨owner, inWalked, digest⟩ | ⟨owner, inWalked, digest, shards⟩
      · refine absurd (adds owner inWalked _ (.inl rfl)) ?_
        rw [Run.rootKey, digest]
        exact unseen
      · have rooted : owner.rootKey = run.rootKey := by rw [Run.rootKey, Run.rootKey, digest]
        have placed := walks'.first inWalked
        rw [digest, rooted] at placed
        refine ⟨⟨owner, placed.1, shards⟩, ?_⟩
        intro before inFront keys listing listed
        have inside : before ∈ newer.runs := (List.takeWhile_sublist _).subset inFront
        rcases walkedFor before inside with ⟨other, otherWalked, same⟩ | ⟨other, otherWalked, same, _⟩
        · have found := (listed_eq decodedOlder decodedNewer distinct (isOlder other otherWalked)
            (List.mem_append_right _ inside) same).trans listing
          exact unseen (adds other otherWalked _ (.inr (.inl ⟨keys, found, listed⟩)))
        · have found := (listed_eq decodedOlder decodedNewer distinct (isNewer other otherWalked)
            (List.mem_append_right _ inside) same).trans listing
          have earlier := (walks'.first otherWalked).1
          rw [same] at earlier
          have inFront' := mem_takeWhile_of_find? inFront (by simp) earlier
          exact placed.2 other inFront' otherWalked keys found listed
  · intro attended
    have kept : ∀ run ∈ newer.runs, ∀ key, run.Adds (Run.listed env replies) key → key ∈ final := by
      intro run member key added
      have from_ : ∀ {owner : Run}, owner ∈ older.runs ++ newer.runs → owner.root.digest = run.root.digest →
          owner.shards = run.shards → owner.Adds (Run.listed env replies) key := by
        intro owner known digest shards
        rw [Run.Adds, Run.rootKey, digest, shards_eq digest shards,
          listed_eq decodedOlder decodedNewer distinct known (List.mem_append_right _ member) digest]
        exact added
      by_cases seen : run.rootKey ∈ live
      · have shard := (attended run member).1 seen _ (sharded run member)
        rcases owned run _ (sharded run member) shard with ⟨owner, inWalked, digest, shards⟩
        exact inFinal key (adds owner inWalked key (from_ (isOlder owner inWalked) digest shards))
      · rcases (attended run member).2 seen with ⟨⟨owner, found, shards⟩, clear⟩
        have digest : owner.root.digest = run.root.digest := by simpa using List.find?_some found
        have rooted : owner.rootKey = run.rootKey := by rw [Run.rootKey, Run.rootKey, digest]
        have inWalked : owner ∈ walked' := by
          apply walks'.reaches (rooted ▸ seen)
          · rw [digest]
            exact found
          · rw [digest, rooted]
            exact clear
        exact adds' owner inWalked key (from_ (isNewer owner inWalked) digest shards)
    have copies : ∀ digest ∈ headCopies env replies keepHeads newer.parent, .object digest ∈ final :=
      fun digest member => (members' _).mpr (.inr ⟨digest, member, rfl⟩)
    refine ⟨kept, copies, ?_⟩
    intro keys done key member
    rcases reachable_run done with ⟨alone, _, walksAlone, membersAlone⟩
    rcases (membersAlone key).mp member with inRuns | ⟨digest, inCopies, rfl⟩
    · rcases walksAlone.mem_final.mp inRuns with wrong | ⟨run, inAlone, added⟩
      · cases wrong
      · exact kept run (walksAlone.subset run inAlone) key added
    · exact copies digest inCopies

end

/-! Heads over runs that hold no records. -/

def emptyRoot : Bytes := encodeRoot (List.replicate 16 .default)

def emptyRun (block : UInt64) (shards : UInt32) : Run :=
  ⟨block, block, 1, 0, shards, ⟨.ofNat 0x02aa3a5ef70be6c080df29856d9a5d428c571527610fe61dc5f11f35173ec53c, 581⟩,
    hexEncode emptyRoot⟩

def headOver (number : UInt64) (runs : List Run) : Head :=
  ⟨headMagic, 1, .zero, number, .zero, .zero, .zero, none, runs, []⟩

def smallHead : Head := headOver 0 [emptyRun 0 1]

/-- The same root, summarised for twice as many keys. -/
def resizedHead : Head := headOver 0 [emptyRun 0 2]

/-- The small head after a publication without events. -/
def grownHead : Head := headOver 1 [emptyRun 0 1, emptyRun 1 1]

def emptyRuns : Externals :=
  .ofTables ⟨digestOf [(emptyRoot, 0x02aa3a5ef70be6c080df29856d9a5d428c571527610fe61dc5f11f35173ec53c)],
    fun _ => bail "no pages", fun _ _ => bail "no pages"⟩ [] [] [smallHead, resizedHead, grownHead]

def emptyReplies (op : StoreOp) : op.Resp :=
  ((System.empty : System Unit).perform emptyRuns.toPrimitives .memory () op).1

def smallLive : List Key := shardKeysOf (emptyRun 0 1) |>.reverse |>.append [(emptyRun 0 1).rootKey]

theorem emptyRuns_distinct {runs : List Run} (same : ∀ run ∈ runs, run.rootBytes = hexEncode emptyRoot) :
    RootsDistinct emptyRuns runs := by
  intro first inFirst second inSecond left right decodedLeft decodedRight _
  rw [same first inFirst] at decodedLeft
  rw [same second inSecond] at decodedRight
  exact Except.ok.inj (decodedLeft.symm.trans decodedRight)

theorem decode_smallHead : Head.decode emptyRuns smallHead.jsonBytes = .ok smallHead := by decide +kernel

theorem reachable_smallHead : ((reachable emptyRuns smallHead 2 []).run emptyReplies).2 = .ok smallLive := by
  decide +kernel

/-- The walk of the resized head skips its only run, whose root the walk of the small
head has added, and so leaves out its shard paths. -/
theorem reachable_resized :
    Head.decode emptyRuns smallHead.jsonBytes = .ok smallHead ∧
    Head.decode emptyRuns resizedHead.jsonBytes = .ok resizedHead ∧
    RootsDistinct emptyRuns (smallHead.runs ++ resizedHead.runs) ∧
    ((reachable emptyRuns smallHead 2 []).run emptyReplies).2 = .ok smallLive ∧
    ((reachable emptyRuns resizedHead 2 smallLive).run emptyReplies).2 = .ok smallLive ∧
    ¬ Retains emptyRuns emptyReplies resizedHead 2 smallLive := by
  refine ⟨decode_smallHead, by decide +kernel, emptyRuns_distinct (by decide +kernel), reachable_smallHead,
    by decide +kernel, ?_⟩
  intro retains
  have lost := retains.runs (emptyRun 0 2) List.mem_cons_self
    (.summary (emptyRun 0 2).root.digest 2 .address 0) (.inr (.inr (by decide +kernel)))
  exact absurd lost (by decide +kernel)

theorem reachable_grown :
    ((reachable emptyRuns smallHead 2 []).run emptyReplies).2 = .ok smallLive ∧
    ((reachable emptyRuns grownHead 2 smallLive).run emptyReplies).2 = .ok smallLive ∧
    Retains emptyRuns emptyReplies grownHead 2 smallLive := by
  have second : ((reachable emptyRuns grownHead 2 smallLive).run emptyReplies).2 = .ok smallLive := by
    decide +kernel
  refine ⟨reachable_smallHead, second, ?_⟩
  have decodedGrown : Head.decode emptyRuns grownHead.jsonBytes = .ok grownHead := by decide +kernel
  rw [reachable_retains_iff decode_smallHead decodedGrown (emptyRuns_distinct (by decide +kernel))
    reachable_smallHead second]
  have seen : ∀ run ∈ grownHead.runs, run.rootKey ∈ smallLive ∧ ∀ key ∈ shardKeysOf run, key ∈ smallLive := by
    decide +kernel
  intro run member
  exact ⟨fun _ => (seen run member).2, fun unseen => absurd (seen run member).1 unseen⟩

end Fossil
