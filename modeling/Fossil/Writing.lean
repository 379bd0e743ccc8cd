import Fossil.Compact
import Fossil.RunScan

/-! Storing a run.

`buildRun` is what a build of sorted records comes to: the run and everything it
stores. A program that writes a run makes all of it durable. The proofs ask
little of the protocol around them, which `Hosting` collects. -/

namespace Fossil

section

variable {Owner : Type}

/-- What programs that write and read immutable objects rely on. `mayPut` says
which objects may be written in a state. -/
structure Hosting (env : Primitives) (world : World StoreOp StoreOp.Resp Owner (System Owner))
    (protocol : Protocol (System Owner)) (owner : Owner)
    (mayPut : System Owner → Key → Bytes → Prop) : Prop where
  stays : ∀ {state later : System Owner} {key : Key} {bytes : Bytes}, protocol.le state later →
    key.immutable → state.content key = some bytes → later.content key = some bytes
  mayStay : ∀ {state later : System Owner} {key : Key} {bytes : Bytes}, protocol.le state later →
    mayPut state key bytes → mayPut later key bytes
  object : ∀ (state : System Owner) (object : EncodedObject), object.Addressed env →
    mayPut state object.objectKey object.bytes
  written : ∀ {state after : System Owner} {key : Key} {bytes : Bytes} {reply : Result Unit},
    protocol.inv state → mayPut state key bytes →
    world.step owner (.putImmutable key bytes) state reply after →
    protocol.inv after ∧ protocol.le state after ∧ (reply = .ok () → after.content key = some bytes)
  read : ∀ {state after : System Owner} {key : Key} {maximum : Nat} {reply : Result Bytes},
    protocol.inv state → world.step owner (.getBounded key maximum) state reply after →
    protocol.inv after ∧ protocol.le state after ∧
      ∀ bytes, reply = .ok bytes → after.content key = some bytes
  chosen : ∀ {state after : System Owner} {bound n : Nat}, protocol.inv state →
    world.step owner (.choose bound) state n after → protocol.inv after ∧ protocol.le state after

/-- Every listed object is stored. -/
def AllStored (objects : List (Key × Bytes)) (state : System Owner) : Prop :=
  ∀ object ∈ objects, state.content object.1 = some object.2

variable {env : Primitives} {world : World StoreOp StoreOp.Resp Owner (System Owner)}
  {protocol : Protocol (System Owner)} {owner : Owner} {mayPut : System Owner → Key → Bytes → Prop}

theorem Hosting.allStored_stays (host : Hosting env world protocol owner mayPut)
    {objects : List (Key × Bytes)} {state later : System Owner} (moves : protocol.le state later)
    (immutable : ∀ object ∈ objects, object.1.immutable) (stored : AllStored objects state) :
    AllStored objects later :=
  fun object member => host.stays moves (immutable object member) (stored object member)

theorem Hosting.putImmutable_safe (host : Hosting env world protocol owner mayPut) {key : Key}
    {bytes : Bytes} {state : System Owner} (immutable : key.immutable)
    (allowed : mayPut state key bytes) :
    (putImmutable key bytes).Safe world protocol owner
      (Prog.Returns (fun _ later => later.content key = some bytes)) state := by
  intro later moves inv reply after stepped
  rcases host.written inv (host.mayStay moves allowed) stepped with ⟨kept, grown, stored⟩
  refine ⟨kept, grown, Prog.safe_ofExcept ?_⟩
  intro final moved _ value done
  exact host.stays moved immutable (stored done)

theorem Hosting.choose_safe {α : Type} (host : Hosting env world protocol owner mayPut) {bound : Nat}
    {next : Nat → StoreProg α} {post : Except Error α → System Owner → Prop} {state : System Owner}
    (rest : ∀ n later, protocol.le state later → (next n).Safe world protocol owner post later) :
    ((choose bound).bind next).Safe world protocol owner post state := by
  intro later moves inv n after stepped
  rcases host.chosen inv stepped with ⟨kept, grown⟩
  exact ⟨kept, grown, rest n after (protocol.trans moves grown)⟩

theorem allStored_cons {objects : List (Key × Bytes)} {index : Nat} {object : Key × Bytes}
    {state : System Owner} (found : objects[index]? = some object)
    (stored : state.content object.1 = some object.2)
    (rest : AllStored (objects.eraseIdx index) state) : AllStored objects state := by
  intro other listed
  rcases List.getElem?_eq_some_iff.mp found with ⟨bound, same⟩
  rcases List.getElem_of_mem listed with ⟨place, inside, here⟩
  by_cases this : place = index
  · subst this
    rw [← here, same]
    exact stored
  · exact rest other (List.mem_eraseIdx_iff_getElem.mpr ⟨place, inside, this, here⟩)

/-- Concurrent puts store every object, in whatever order they proceed. -/
theorem Hosting.putAll_safe (host : Hosting env world protocol owner mayPut) {fuel : Nat}
    {objects : List (Key × Bytes)} {state : System Owner} (enough : objects.length ≤ fuel)
    (immutable : ∀ object ∈ objects, object.1.immutable)
    (allowed : ∀ object ∈ objects, mayPut state object.1 object.2) :
    (putAll fuel objects).Safe world protocol owner
      (Prog.Returns (fun _ later => AllStored objects later)) state := by
  induction fuel generalizing objects state with
  | zero =>
      have none : objects = [] := List.length_eq_zero_iff.mp (Nat.le_zero.mp enough)
      subst none
      exact Prog.safe_ret_returns (fun later _ _ object member => nomatch member)
  | succ fuel ih =>
      apply host.choose_safe
      intro n middle moves
      have allowed' : ∀ object ∈ objects, mayPut middle object.1 object.2 :=
        fun object member => host.mayStay moves (allowed object member)
      cases found : objects[n % objects.length]? with
      | none =>
          have empty : objects = [] := by
            by_contra nonempty
            have bound := Nat.mod_lt n (List.length_pos_iff.mpr nonempty)
            rw [List.getElem?_eq_getElem bound] at found
            cases found
          subst empty
          exact Prog.safe_ret_returns (fun later _ _ object member => nomatch member)
      | some object =>
          rcases List.getElem?_eq_some_iff.mp found with ⟨bound, _⟩
          have member := List.mem_of_getElem? found
          apply Prog.Safe.returns_bind (host.putImmutable_safe (immutable _ member) (allowed' _ member))
          intro _ later moved inv stored
          have rest := @ih (objects.eraseIdx (n % objects.length)) later
            (by rw [List.length_eraseIdx_of_lt bound]; omega)
            (fun other inside => immutable other (List.mem_of_mem_eraseIdx inside))
            (fun other inside => host.mayStay moved (allowed' other (List.mem_of_mem_eraseIdx inside)))
          apply rest.weaken
          intro outcome final moved' _ others value done
          exact allStored_cons found (host.stays moved' (immutable _ member) stored) (others value done)

end

/-! What a build comes to. -/

/-- The keys and bytes objects are stored under. -/
def objectPuts (objects : List EncodedObject) : List (Key × Bytes) :=
  objects.map (fun object => (object.objectKey, object.bytes))

/-- The run built from sorted records, with everything it stores. -/
def buildRun (env : Primitives) (records : List Record) (expectedKeys : UInt64) :
    Result (BuiltRun × List (Key × Bytes)) := do
  let empty ← SummaryBuilder.new expectedKeys
  let summary := empty.addAll env (distinctKeys records)
  let (objects, built) := (RunBuilder.build env records).collect
  let root ← built
  .ok (⟨root, (objects.getLast?.map EncodedObject.bytes).getD [], summary.keys, summary.shards⟩,
    objectPuts objects ++ summary.finish env root.digest)

section

variable {env : Primitives} {records : List Record} {expectedKeys : UInt64} {built : BuiltRun}
  {stored : List (Key × Bytes)}

theorem buildRun_eq_ok :
    buildRun env records expectedKeys = .ok (built, stored) ↔
      ∃ empty objects root, SummaryBuilder.new expectedKeys = .ok empty ∧
        (RunBuilder.build env records).collect = (objects, .ok root) ∧
        built = ⟨root, (objects.getLast?.map EncodedObject.bytes).getD [],
          (empty.addAll env (distinctKeys records)).keys,
          (empty.addAll env (distinctKeys records)).shards⟩ ∧
        stored = objectPuts objects ++
          (empty.addAll env (distinctKeys records)).finish env root.digest := by
  unfold buildRun
  rw [bind_eq_ok]
  constructor
  · intro ⟨empty, made, rest⟩
    rcases bind_eq_ok.mp rest with ⟨root, finished, done⟩
    cases done
    exact ⟨empty, _, root, made, Prod.ext rfl finished, rfl, rfl⟩
  · intro ⟨empty, objects, root, made, granted, same, puts⟩
    refine ⟨empty, made, ?_⟩
    rw [granted]
    simp only [ok_bind, same, puts]

theorem buildRun_immutable (done : buildRun env records expectedKeys = .ok (built, stored)) :
    ∀ object ∈ stored, object.1.immutable := by
  rcases buildRun_eq_ok.mp done with ⟨empty, objects, root, _, _, _, rfl⟩
  intro object member
  rcases List.mem_append.mp member with inObjects | inShards
  · rcases List.mem_map.mp inObjects with ⟨_, _, rfl⟩
    rfl
  · rcases finish_keys inShards with ⟨kind, index, same⟩
    rw [same]
    rfl

/-- The root of a built run is the last object of its tree. -/
theorem buildRun_tree (done : buildRun env records expectedKeys = .ok (built, stored)) :
    ∃ (tree : RunTree env) (objects : List EncodedObject), tree.Stores records objects ∧
      built.root = tree.object.reference ∧ built.rootBytes = tree.object.bytes ∧
      ∀ object ∈ objectPuts objects, object ∈ stored := by
  rcases buildRun_eq_ok.mp done with ⟨empty, objects, root, _, granted, rfl, rfl⟩
  rcases build_granted granted with ⟨tree, stores, same⟩
  refine ⟨tree, objects, stores, same, ?_, fun object member => List.mem_append_left _ member⟩
  simp [stores.root]

/-- A run whose whole tree is stored. -/
def RunStored {Owner : Type} (env : Primitives) (state : System Owner) (root : ObjectRef × Bytes)
    (records : List Record) : Prop :=
  ∃ (tree : RunTree env) (objects : List EncodedObject), tree.Stores records objects ∧
    root = (tree.object.reference, tree.object.bytes) ∧ AllStored (objectPuts objects) state

theorem runStored_of_objects {Owner : Type} {state : System Owner} {objects : List EncodedObject} {root : ObjectRef}
    (granted : (RunBuilder.build env records).collect = (objects, .ok root))
    (stored : AllStored (objectPuts objects) state) :
    RunStored env state (root, (objects.getLast?.map EncodedObject.bytes).getD []) records := by
  rcases build_granted granted with ⟨tree, stores, same⟩
  refine ⟨tree, objects, stores, Prod.ext same ?_, stored⟩
  rw [stores.root]
  rfl

theorem buildRun_stored {Owner : Type} {state : System Owner}
    (done : buildRun env records expectedKeys = .ok (built, stored))
    (durable : AllStored stored state) :
    RunStored env state (built.root, built.rootBytes) records := by
  rcases buildRun_tree done with ⟨tree, objects, stores, root, bytes, inside⟩
  exact ⟨tree, objects, stores, by rw [root, bytes], fun object member => durable object (inside object member)⟩

variable {Owner : Type} {world : World StoreOp StoreOp.Resp Owner (System Owner)}
  {protocol : Protocol (System Owner)} {owner : Owner} {mayPut : System Owner → Key → Bytes → Prop}

/-- A finished write is the build of its records, durable as a whole. Its shards are
written once the tree of the run is stored. -/
theorem Hosting.writeSorted_safe (host : Hosting env world protocol owner mayPut)
    {state : System Owner}
    (allowed : ∀ built stored,
      buildRun env records (UInt64.ofNat (distinctKeys records).length) = .ok (built, stored) →
        ∀ later, protocol.le state later → RunStored env later (built.root, built.rootBytes) records →
          ∀ object ∈ stored, mayPut later object.1 object.2) :
    (writeSorted env records).Safe world protocol owner (Prog.Returns (fun built later => ∃ stored,
      buildRun env records (UInt64.ofNat (distinctKeys records).length) = .ok (built, stored) ∧
        AllStored stored later)) state := by
  apply Prog.safe_ofExcept_bind
  intro empty made
  apply Prog.safe_ofExcept_bind
  intro root granted
  have emitted : (RunBuilder.build env records).collect = (_, .ok root) := Prod.ext rfl granted
  have whole := buildRun_eq_ok.mpr ⟨empty, _, root, made, emitted, rfl, rfl⟩
  have immutable := buildRun_immutable whole
  apply Prog.Safe.returns_bind (host.putAll_safe (Nat.le_of_eq (List.length_map _))
    (fun object member => immutable object (List.mem_append_left _ member)) ?_)
  · intro _ middle moves _ objectsStored
    have may := allowed _ _ whole middle moves (runStored_of_objects emitted objectsStored)
    apply Prog.Safe.returns_bind (host.putAll_safe (Nat.le_refl _)
      (fun object member => immutable object (List.mem_append_right _ member))
      (fun object member => may object (List.mem_append_right _ member)))
    intro _ last moves' _ shardsStored
    apply Prog.safe_ret_returns
    intro later moves'' _
    refine ⟨_, whole, ?_⟩
    intro object member
    apply host.stays moves'' (immutable object member)
    rcases List.mem_append.mp member with inObjects | inShards
    · exact host.stays moves' (immutable object member) (objectsStored object inObjects)
    · exact shardsStored object inShards
  · intro put member
    rcases List.mem_map.mp member with ⟨object, inside, rfl⟩
    exact host.object state object (emitted_addressed emitted object inside)

end

end Fossil
