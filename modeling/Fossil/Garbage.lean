import Fossil.Tiered

/-! Garbage collection of immutable objects.

Objects reachable from the head read before or after the listing are kept, as are
objects younger than the grace age; the age is checked again just before a delete. -/

namespace Fossil

structure GcReport where
  liveObjects : Nat
  deletedObjects : Nat
  deletedBytes : Nat
  keptYoung : Nat
  deriving DecidableEq

/-- The paths of all shards of a run. -/
def shardKeysOf (run : Run) : List Key :=
  [ShardKind.address, ShardKind.spill].flatMap (fun kind =>
    (List.range run.shards.toNat).map (fun index =>
      Key.summary run.root.digest run.shards kind (UInt32.ofNat index)))

/-- Add keys to a set of keys. -/
def extendLive (live keys : List Key) : List Key :=
  keys.foldl (fun live key => if key ∈ live then live else key :: live) live

/-- The outcome of one re-check. -/
structure Sweep where
  unchecked : List Listed
  confirmed : List Listed
  deleted : List Nat
  kept : Nat

section

variable (env : Externals)

/-- Keys of the objects of each run; a root seen before is not walked again. -/
def reachableRuns : List Run → List Key → StoreProg (List Key)
  | [], live => .ret live
  | run :: rest, live => do
      let (root, bytes) ← run.input
      if .object root.digest ∈ live then reachableRuns rest live
      else do
        let reader ← RunReader.decode env.toPrimitives root bytes
        let refs ← withFetch env.toPrimitives (reader.objectRefs env.toPrimitives)
        reachableRuns rest (extendLive (.object root.digest :: live)
          (refs.map (fun reference => .object reference.digest) ++ shardKeysOf run))

/-- Follow the chain of head copies, newest first. -/
def keepParents : Nat → Option ObjectRef → List Key → StoreProg (List Key)
  | 0, _, live => .ret live
  | _ + 1, none, live => .ret live
  | keep + 1, some reference, live => do
      let read ← Prog.attempt (getBounded (.object reference.digest) maxHead)
      match read with
      | .error _ => .ret live
      | .ok bytes =>
          let parent :=
            match env.headFromSlice bytes with
            | .ok head => head.parent
            | .error _ => none
          keepParents keep parent (extendLive live [.object reference.digest])

/-- Keys of every object reachable from `head`, plus its newest `keepHeads` copies. -/
def reachable (head : Head) (keepHeads : Nat) (live : List Key) : StoreProg (List Key) := do
  let live ← reachableRuns env head.runs live
  keepParents env keepHeads head.parent live

/-- Re-check and delete the doomed objects; the concurrent steps proceed in any order. -/
def sweep (cutoff : Int) (dryRun : Bool) : Nat → Sweep → StoreProg Sweep
  | 0, state => .ret state
  | fuel + 1, state => do
      let n ← choose (state.unchecked.length + state.confirmed.length)
      let k := n % (state.unchecked.length + state.confirmed.length)
      match state.unchecked[k]? with
      | some listed => do
          let stamp ← modified listed.key
          let unchecked := state.unchecked.eraseIdx k
          if stamp.all (fun modified => decide ((modified : Int) > cutoff)) then
            sweep cutoff dryRun fuel { state with unchecked := unchecked, kept := state.kept + 1 }
          else if dryRun then
            sweep cutoff dryRun fuel { state with
              unchecked := unchecked, deleted := state.deleted ++ [listed.size] }
          else
            sweep cutoff dryRun fuel { state with
              unchecked := unchecked, confirmed := state.confirmed ++ [listed] }
      | none =>
          match state.confirmed[k - state.unchecked.length]? with
          | none => .ret state
          | some listed => do
              delete listed.key
              sweep cutoff dryRun fuel { state with
                confirmed := state.confirmed.eraseIdx (k - state.unchecked.length)
                deleted := state.deleted ++ [listed.size] }

def collectGarbage (chainId : UInt64) (keepHeads : Nat) (minAge : Time) (dryRun : Bool) :
    StoreProg GcReport := do
  let started ← now
  let before ← readHead env chainId
  match before with
  | none => .fail ["missing tiered head"]
  | some (_, head) => do
      let live ← reachable env head keepHeads []
      let objects ← listDirectory .objects
      let summaries ← listDirectory .summaries
      let after ← readHead env chainId
      match after with
      | none => .fail ["tiered head vanished"]
      | some (_, head) => do
          let live ← reachable env head keepHeads live
          let cutoff : Int := (started : Int) - (minAge : Int)
          let candidates := (objects ++ summaries).filter (fun listed => listed.key ∉ live)
          let doomed := candidates.filter (fun listed => decide (¬ (listed.modified : Int) > cutoff))
          let swept ← sweep cutoff dryRun (2 * doomed.length) ⟨doomed, [], [], 0⟩
          .ret ⟨live.length, swept.deleted.length, swept.deleted.sum,
            (candidates.length - doomed.length) + swept.kept⟩

end

end Fossil
