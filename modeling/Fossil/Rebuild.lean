import Fossil.Collected
import Mathlib.Data.List.Dedup

/-! Merging in a store at rest.

When no operation fails, the merge of stored runs stops for one of two reasons: two
runs share a version, or something else is stored where the merged run belongs. -/

namespace Fossil

/-- Nothing else is stored where these objects belong. -/
def Vacant (objects : List (Key × Bytes)) (state : ArchiveSystem) : Prop :=
  ∀ object ∈ objects, ∀ bytes, state.content object.1 = some bytes → bytes = object.2

/-- A state on the way: what was stored still is, and there is room for the rest. -/
structure Underway (room : List (Key × Bytes)) (base state : ArchiveSystem) : Prop where
  kept : ∀ key bytes, base.content key = some bytes → state.content key = some bytes
  vacant : Vacant room state

/-- The program ends without an error, on the way. -/
abbrev Completes {α : Type} (env : Externals) (backend : Backend) (owner : Call)
    (room : List (Key × Bytes)) (base : ArchiveSystem) (property : α → Prop) (prog : StoreProg α)
    (state : ArchiveSystem) : Prop :=
  prog.Follows ((calm env.toPrimitives backend).step owner)
    (fun outcome after => Underway room base after ∧ ∃ value, outcome = .ok value ∧ property value) state

section

variable {env : Externals} {backend : Backend} {owner : Call} {room : List (Key × Bytes)}
  {base state : ArchiveSystem}

theorem Underway.tick (underway : Underway room base state) (clock : Time) :
    Underway room base (state.tick clock) :=
  ⟨underway.kept, underway.vacant⟩

theorem Underway.fetchable {object : EncodedObject} (underway : Underway room base state)
    (fetchable : Fetchable env base object) : Fetchable env state object :=
  ⟨underway.kept _ _ fetchable.held, fetchable.within, fetchable.addressed⟩

theorem Completes.bind {α β : Type} {middle : α → Prop} {final : β → Prop} {prog : StoreProg α}
    {next : α → StoreProg β} (first : Completes env backend owner room base middle prog state)
    (rest : ∀ value after, middle value → Underway room base after →
      Completes env backend owner room base final (next value) after) :
    Completes env backend owner room base final (prog.bind next) state := by
  apply Prog.Follows.bind
  apply first.weaken
  rintro outcome after ⟨underway, value, rfl, holds⟩
  exact rest value after holds underway

theorem Completes.attempt {α : Type} {property : α → Prop} {prog : StoreProg α}
    (completes : Completes env backend owner room base property prog state) :
    Completes env backend owner room base (fun outcome => ∃ value, outcome = .ok value ∧ property value)
      prog.attempt state := by
  apply Prog.Follows.attempt
  apply completes.weaken
  exact fun outcome after ⟨underway, ended⟩ => ⟨underway, outcome, rfl, ended⟩

/-- A create-only write of an object with room. -/
theorem System.putImmutable_vacant {key : Key} {bytes : Bytes}
    (same : ∀ stored, state.content key = some stored → stored = bytes) :
    (state.putImmutable backend key bytes).1 = .ok () ∧
      ∀ other, (state.putImmutable backend key bytes).2.content other =
        if other = key then some bytes else state.content other := by
  unfold System.putImmutable
  cases found : state.lookup key with
  | none => exact ⟨rfl, fun other => System.content_insert backend state key other bytes⟩
  | some entry =>
      have known : entry.bytes = bytes := same _ (by rw [System.content, found]; rfl)
      have unchanged : ∀ other, state.content other = if other = key then some bytes else state.content other := by
        intro other
        split
        · next here =>
            rw [here, System.content, found, ← known]
            rfl
        · rfl
      dsimp only
      rw [if_neg (by rw [known]; omega), if_neg (not_not.mpr known)]
      split
      · refine ⟨rfl, fun other => ?_⟩
        exact (System.content_restamp found other).trans (unchanged other)
      · exact ⟨rfl, unchanged⟩

/-- The pipeline after these records, with nothing gone wrong. -/
structure Pipeline.Runs (env : Externals) (room : List (Key × Bytes)) (base : ArchiveSystem)
    (sent : List Record) (pipeline : Pipeline) : Prop where
  running : pipeline.stopped = none
  queue : ∀ object ∈ objectPuts pipeline.pending, object ∈ room
  ready : ∀ digest bytes, pipeline.ready.lookup digest = some bytes →
    base.content (.object digest) = some bytes
  building : (BuilderState.start.pushAll env.toPrimitives sent).collect.2 = pipeline.builder

variable {pipeline : Pipeline} {sent : List Record}

/-- A reference to an object that was stored from the start. -/
def Known (env : Externals) (base : ArchiveSystem) (reference : ObjectRef) : Prop :=
  ∃ object, Fetchable env base object ∧ object.reference = reference

theorem Known.served {reference : ObjectRef} {reply : Result Bytes} (known : Known env base reference)
    (served : Serves (Fetchable env base) (fun _ => False) reference reply) :
    ∃ bytes, reply = .ok bytes ∧ base.content (.object reference.digest) = some bytes := by
  rcases known with ⟨object, fetchable, rfl⟩
  rcases served object fetchable rfl with done | ⟨_, _, wrong⟩
  · exact ⟨object.bytes, done, fetchable.held⟩
  · exact wrong.elim

/-- What a build emits on the way to its end. -/
theorem pushAll_before {merged : List Record} {objects : List EncodedObject} {root : ObjectRef}
    (granted : (RunBuilder.build env.toPrimitives merged).collect = (objects, .ok root))
    (before : sent <+: merged) :
    (∃ building, (BuilderState.start.pushAll env.toPrimitives sent).collect.2 = .ok building) ∧
      ∀ object ∈ (BuilderState.start.pushAll env.toPrimitives sent).collect.1, object ∈ objects := by
  rcases before with ⟨rest, rfl⟩
  have whole := granted
  rw [RunBuilder.build, Prog.bind_eq, pushAll_append, Prog.bind_assoc, Prog.collect_bind] at whole
  rcases Prod.mk.inj whole with ⟨emitted, ended⟩
  constructor
  · cases building : (BuilderState.start.pushAll env.toPrimitives sent).collect.2 with
    | ok state => exact ⟨state, rfl⟩
    | error error =>
        rw [building] at ended
        cases ended
  · intro object member
    rw [← emitted]
    exact List.mem_append_left _ member

variable {merged : List Record} {objects : List EncodedObject} {root : ObjectRef}

/-- Everything is handed to the builder, which ends with its root. -/
theorem Pipeline.Runs.finish (granted : (RunBuilder.build env.toPrimitives merged).collect = (objects, .ok root))
    (listed : ∀ object ∈ objectPuts objects, object ∈ room) (runs : pipeline.Runs env room base merged) :
    (pipeline.finish env.toPrimitives).1 = .ok root ∧
      (pipeline.finish env.toPrimitives).2.stopped = none ∧
      ∀ object ∈ objectPuts (pipeline.finish env.toPrimitives).2.pending, object ∈ room := by
  rcases (pushAll_before granted (List.prefix_rfl)).1 with ⟨building, ok⟩
  have builder : pipeline.builder = .ok building := runs.building.symm.trans ok
  have whole := granted
  rw [RunBuilder.build, Prog.bind_eq, Prog.collect_bind, ok] at whole
  rcases Prod.mk.inj whole with ⟨emitted, ended⟩
  unfold Pipeline.finish
  rw [builder]
  dsimp only
  rw [deliver_running _ runs.running]
  refine ⟨ended, runs.running, ?_⟩
  intro object member
  rcases List.mem_map.mp member with ⟨inner, inside, rfl⟩
  rcases List.mem_append.mp inside with old | new
  · exact runs.queue _ (List.mem_map_of_mem old)
  · apply listed _ (List.mem_map_of_mem ?_)
    rw [← emitted]
    exact List.mem_append_right _ new

theorem pageLists_reads (readers : List RunReader) :
    (pageLists env.toPrimitives readers).Asks StoreOp.Reads := by
  induction readers with
  | nil => trivial
  | cons reader readers ih =>
      apply (withFetch_reads _).bind
      intro pages
      exact ih.bind (fun _ => trivial)

end

/-! The keys of a run. -/

/-- A run as the builder makes it, with all its objects stored. -/
def BuiltAndStored (env : Primitives) (state : ArchiveSystem) (run : ObjectRef × Bytes)
    (records : List Record) : Prop :=
  ∃ objects, (RunBuilder.build env records).collect = (objects, .ok run.1) ∧
    run.2 = (objects.getLast?.map EncodedObject.bytes).getD [] ∧ AllStored (objectPuts objects) state

section

variable {env : Externals} {backend : Backend} {owner : Call} {base : ArchiveSystem}

theorem BuiltAndStored.runStored {run : ObjectRef × Bytes} {records : List Record}
    (stored : BuiltAndStored env.toPrimitives base run records) :
    RunStored env.toPrimitives base run records := by
  rcases stored with ⟨objects, granted, bytes, durable⟩
  rcases build_granted granted with ⟨tree, stores, root⟩
  refine ⟨tree, objects, stores, Prod.ext root ?_, durable⟩
  rw [bytes, stores.root]
  rfl

section

variable {runs : List (ObjectRef × Bytes)} {lists : List (List Record)} {expectedKeys : UInt64}
  (lossless : env.toPrimitives.Lossless)
  (stored : List.Forall₂ (RunStored env.toPrimitives base) runs lists)

include lossless stored

end

end

end Fossil
