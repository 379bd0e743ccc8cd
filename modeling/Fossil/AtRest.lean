import Fossil.Live
import Fossil.Links

/-! A store at rest.

No operation fails and nobody else is at work. A program that only reads then ends
as its run against the stored objects does, and a collection removes exactly the
immutable objects outside its final live set. -/

namespace Fossil

section

variable {Owner : Type}

/-- The store when no operation fails. -/
def calm (env : Primitives) (backend : Backend) : World StoreOp StoreOp.Resp Owner (System Owner) :=
  System.world env backend (fun _ => False)

/-- What a state of the store replies. -/
def System.replies (env : Primitives) (backend : Backend) (owner : Owner) (state : System Owner)
    (op : StoreOp) : op.Resp :=
  (state.perform env backend owner op).1

/-- Operations that only read. -/
def StoreOp.Reads : StoreOp → Prop
  | .getBounded .. => True
  | .readMutableBounded .. => True
  | _ => False

variable {env : Primitives} {backend : Backend} {owner : Owner} {state after : System Owner}

theorem calm_reads {op : StoreOp} {reply : op.Resp} (reads : op.Reads)
    (stepped : (calm env backend).step owner op state reply after) :
    reply = state.replies env backend owner op ∧
      ∃ clock, state.clock ≤ clock ∧ after = state.tick clock := by
  rcases stepped with ⟨clock, later, outcome⟩
  cases op with
  | getBounded key maximum =>
      cases outcome with
      | done => exact ⟨rfl, clock, later, rfl⟩
      | lost _ _ allowed => exact allowed.elim
      | unacknowledged _ _ allowed => exact allowed.elim
  | readMutableBounded key maximum =>
      cases outcome with
      | done => exact ⟨rfl, clock, later, rfl⟩
      | lost _ _ allowed => exact allowed.elim
      | unacknowledged _ _ allowed => exact allowed.elim
  | _ => exact reads.elim

theorem replies_tick {op : StoreOp} (reads : op.Reads) (clock : Time) :
    (state.tick clock).replies env backend owner op = state.replies env backend owner op := by
  cases op with
  | getBounded key maximum => rfl
  | readMutableBounded key maximum => rfl
  | _ => exact reads.elim

theorem replies_getBounded {key : Key} {bytes : Bytes} {maximum : Nat} (held : state.content key = some bytes)
    (small : bytes.length ≤ maximum) :
    state.replies env backend owner (.getBounded key maximum) = .ok bytes := by
  rcases Option.map_eq_some_iff.mp held with ⟨entry, found, rfl⟩
  show state.getBounded backend key maximum = _
  unfold System.getBounded
  rw [found]
  exact if_neg (Nat.not_lt_of_le small)

/-- A program that only reads ends as its run does. -/
theorem follows_reads {α : Type} {prog : StoreProg α} {post : Except Error α → System Owner → Prop}
    (base : System Owner) (reads : prog.Asks StoreOp.Reads) {clock : Time}
    (holds : ∀ later, clock ≤ later →
      post (prog.run (base.replies env backend owner)).2 (base.tick later)) :
    prog.Follows ((calm env backend).step owner) post (base.tick clock) := by
  induction prog generalizing clock with
  | ret value => exact holds clock (Nat.le_refl _)
  | fail error => exact holds clock (Nat.le_refl _)
  | call op next ih =>
      intro reply after stepped
      rcases calm_reads reads.1 stepped with ⟨same, later, passed, rfl⟩
      rw [replies_tick reads.1] at same
      subst same
      exact ih _ (reads.2 _) (fun final reached => holds final (Nat.le_trans passed reached))

/-! One operation, and what follows it. -/

variable {α : Type} {post : Except Error α → System Owner → Prop}

theorem follows_now {next : Time → StoreProg α}
    (rest : ∀ clock, state.clock ≤ clock →
      (next clock).Follows ((calm env backend).step owner) post (state.tick clock)) :
    (now.bind next).Follows ((calm env backend).step owner) post state := by
  rintro reply after ⟨clock, later, outcome⟩
  cases outcome with
  | done => exact rest clock later
  | lost _ _ allowed => exact allowed.elim
  | unacknowledged _ _ allowed => exact allowed.elim

theorem follows_list {directory : Directory} {next : List Listed → StoreProg α}
    (rest : ∀ listed clock, listed.Perm (state.list directory) → state.clock ≤ clock →
      (next listed).Follows ((calm env backend).step owner) post (state.tick clock)) :
    ((listDirectory directory).bind next).Follows ((calm env backend).step owner) post state := by
  rintro reply after ⟨clock, later, outcome⟩
  cases outcome with
  | done => exact rest _ clock (.refl _) later
  | reordered _ listed same => exact rest listed clock same later
  | lost _ _ allowed => exact allowed.elim
  | unacknowledged _ _ allowed => exact allowed.elim

theorem follows_choose {bound : Nat} {next : Nat → StoreProg α}
    (rest : ∀ n clock, state.clock ≤ clock →
      (next n).Follows ((calm env backend).step owner) post (state.tick clock)) :
    ((choose bound).bind next).Follows ((calm env backend).step owner) post state := by
  rintro reply after ⟨clock, later, outcome⟩
  cases outcome with
  | done => exact rest _ clock later
  | chosen => exact rest _ clock later
  | lost _ _ allowed => exact allowed.elim
  | unacknowledged _ _ allowed => exact allowed.elim

theorem follows_modified {key : Key} {next : Option Time → StoreProg α}
    (rest : ∀ clock, state.clock ≤ clock → (next ((state.lookup key).map Entry.modified)).Follows
      ((calm env backend).step owner) post (state.tick clock)) :
    ((modified key).bind next).Follows ((calm env backend).step owner) post state := by
  rintro reply after ⟨clock, later, outcome⟩
  cases outcome with
  | done => exact rest clock later
  | lost _ _ allowed => exact allowed.elim
  | unacknowledged _ _ allowed => exact allowed.elim

/-- The store without one object. -/
def System.without (state : System Owner) (key : Key) : System Owner :=
  { state with entries := state.entries.erase key }

theorem System.lookup_without (state : System Owner) (key other : Key) :
    (state.without key).lookup other = if other = key then none else state.lookup other := by
  unfold System.lookup System.without
  split
  · next same =>
      rw [same]
      exact AList.lookup_erase _ _
  · next different => exact AList.lookup_erase_ne different

theorem follows_delete {key : Key} {next : Unit → StoreProg α}
    (rest : ∀ clock, state.clock ≤ clock → (next ()).Follows
      ((calm env backend).step owner) post ((state.tick clock).without key)) :
    ((delete key).bind next).Follows ((calm env backend).step owner) post state := by
  rintro reply after ⟨clock, later, outcome⟩
  cases outcome with
  | done => exact rest clock later
  | lost _ _ allowed => exact allowed.elim
  | unacknowledged _ _ allowed => exact allowed.elim

/-! Sweeping. -/

/-- The objects with these keys are gone, and nothing else has changed but the time. -/
structure Purged (keys : List Key) (before after : System Owner) : Prop where
  lookup : ∀ key, after.lookup key = if key ∈ keys then none else before.lookup key
  memo : after.memo = before.memo
  nextCache : after.nextCache = before.nextCache
  clock : before.clock ≤ after.clock

theorem Purged.tick {clock : Time} (passed : state.clock ≤ clock) : Purged [] state (state.tick clock) :=
  ⟨fun _ => rfl, rfl, rfl, passed⟩

/-- Already purged keys may be counted in. -/
theorem Purged.trans {first second keys : List Key} {before middle after : System Owner}
    (one : Purged first before middle) (two : Purged second middle after)
    (whole : ∀ key, key ∈ keys ↔ key ∈ first ∨ key ∈ second) : Purged keys before after := by
  refine ⟨?_, two.memo.trans one.memo, two.nextCache.trans one.nextCache, one.clock.trans two.clock⟩
  intro key
  rw [two.lookup, one.lookup]
  have split := whole key
  by_cases late : key ∈ second
  · rw [if_pos late, if_pos (split.mpr (.inr late))]
  · rw [if_neg late]
    by_cases early : key ∈ first
    · rw [if_pos early, if_pos (split.mpr (.inl early))]
    · rw [if_neg early, if_neg (fun inside => (split.mp inside).elim early late)]

theorem Purged.without {key : Key} {clock : Time} (passed : state.clock ≤ clock) :
    Purged [key] state ((state.tick clock).without key) := by
  refine ⟨?_, rfl, rfl, passed⟩
  intro other
  rw [System.lookup_without]
  simp only [List.mem_singleton]
  rfl

/-- The keys a sweep has yet to delete. -/
def Sweep.keys (sweep : Sweep) : List Key := (sweep.unchecked ++ sweep.confirmed).map Listed.key

theorem perm_cons_eraseIdx {items : List Listed} {index : Nat} {item : Listed}
    (found : items[index]? = some item) : items.Perm (item :: items.eraseIdx index) := by
  rcases List.getElem?_eq_some_iff.mp found with ⟨bound, rfl⟩
  exact (List.getElem_cons_eraseIdx_perm bound).symm

/-- A missing object is as good as a purged one. -/
theorem Purged.missing {keys more : List Key} {missing : Key} {before after : System Owner}
    (purged : Purged keys before after) (absent : before.lookup missing = none)
    (whole : ∀ key, key ∈ more ↔ key = missing ∨ key ∈ keys) : Purged more before after := by
  refine ⟨?_, purged.memo, purged.nextCache, purged.clock⟩
  intro key
  rw [purged.lookup]
  have split := whole key
  by_cases inside : key ∈ keys
  · rw [if_pos inside, if_pos (split.mpr (.inr inside))]
  · rw [if_neg inside]
    by_cases here : key = missing
    · rw [if_pos (split.mpr (.inl here)), here, absent]
    · rw [if_neg (fun member => (split.mp member).elim here inside)]

/-- Sweeping goes on after a step that only let time pass. -/
theorem Purged.after_tick {keys : List Key} {clock : Time} (passed : state.clock ≤ clock)
    (purged : Purged keys (state.tick clock) after) : Purged keys state after :=
  (Purged.tick passed).trans purged (by simp)

/-- A sweep of old objects deletes all of them. -/
theorem sweep_follows {cutoff : Int} {fuel : Nat} {sweeping : Sweep}
    (enough : 2 * sweeping.unchecked.length + sweeping.confirmed.length ≤ fuel)
    (old : ∀ listed ∈ sweeping.unchecked, ∀ entry, state.lookup listed.key = some entry →
      (entry.modified : Int) ≤ cutoff) :
    (sweep cutoff false fuel sweeping).Follows ((calm env backend).step owner)
      (fun outcome after => ∃ swept, outcome = .ok swept ∧ Purged sweeping.keys state after) state := by
  induction fuel generalizing sweeping state with
  | zero =>
      have unchecked : sweeping.unchecked = [] := List.length_eq_zero_iff.mp (by omega)
      have confirmed : sweeping.confirmed = [] := List.length_eq_zero_iff.mp (by omega)
      refine ⟨sweeping, rfl, ?_⟩
      rw [Sweep.keys, unchecked, confirmed]
      exact Purged.tick (Nat.le_refl _)
  | succ fuel ih =>
      apply follows_choose
      intro n clock passed
      dsimp only
      generalize picked : n % (sweeping.unchecked.length + sweeping.confirmed.length) = k
      cases found : sweeping.unchecked[k]? with
      | some listed =>
          have bound := (List.getElem?_eq_some_iff.mp found).1
          have shorter : (sweeping.unchecked.eraseIdx k).length + 1 = sweeping.unchecked.length := by
            rw [List.length_eraseIdx_of_lt bound]
            omega
          have fewer : ∀ other ∈ sweeping.unchecked.eraseIdx k, ∀ entry,
              state.lookup other.key = some entry → (entry.modified : Int) ≤ cutoff :=
            fun other member => old other (List.mem_of_mem_eraseIdx member)
          apply follows_modified
          intro clock' passed'
          cases present : state.lookup listed.key with
          | none =>
              have fresh : (state.tick clock).lookup listed.key = none := present
              rw [fresh, if_pos (by rfl)]
              apply (ih (by simp only; omega) fewer).weaken
              rintro outcome after ⟨swept, done, purged⟩
              refine ⟨swept, done, (purged.after_tick (passed.trans passed')).missing present ?_⟩
              intro key
              exact (((perm_cons_eraseIdx found).append_right _).map Listed.key).mem_iff.trans List.mem_cons
          | some entry =>
              have aged : (state.tick clock).lookup listed.key = some entry := present
              have stale := old listed (List.mem_of_getElem? found) entry present
              rw [aged, if_neg (by simpa using stale), if_neg Bool.false_ne_true]
              apply (ih (by simp only [List.length_append, List.length_singleton]; omega) fewer).weaken
              rintro outcome after ⟨swept, done, purged⟩
              refine ⟨swept, done, (Purged.tick (passed.trans passed')).trans purged ?_⟩
              have moved : (sweeping.unchecked ++ sweeping.confirmed).Perm
                  (sweeping.unchecked.eraseIdx k ++ (sweeping.confirmed ++ [listed])) := by
                rw [← List.append_assoc]
                exact ((perm_cons_eraseIdx found).append_right _).trans (List.perm_append_singleton _ _).symm
              intro key
              exact (moved.map Listed.key).mem_iff.trans (by simp [Sweep.keys])
      | none =>
          cases confirmed : sweeping.confirmed[k - sweeping.unchecked.length]? with
          | none =>
              -- nothing was left to pick
              have outside := List.getElem?_eq_none_iff.mp found
              have outside' := List.getElem?_eq_none_iff.mp confirmed
              have nothing : sweeping.unchecked.length + sweeping.confirmed.length = 0 := by
                by_contra some
                have := Nat.mod_lt n (Nat.pos_of_ne_zero some)
                omega
              have unchecked : sweeping.unchecked = [] := List.length_eq_zero_iff.mp (by omega)
              have empty : sweeping.confirmed = [] := List.length_eq_zero_iff.mp (by omega)
              refine ⟨sweeping, rfl, ?_⟩
              rw [Sweep.keys, unchecked, empty]
              exact Purged.tick passed
          | some listed =>
              have bound := (List.getElem?_eq_some_iff.mp confirmed).1
              have shorter := List.length_eraseIdx_of_lt bound
              apply follows_delete
              intro clock' passed'
              have without : Purged [listed.key] state (((state.tick clock).tick clock').without listed.key) :=
                Purged.without (passed.trans passed')
              apply (ih (by simp only; omega) ?_).weaken
              · rintro outcome after ⟨swept, done, purged⟩
                refine ⟨swept, done, without.trans purged ?_⟩
                have deleted : (sweeping.unchecked ++ sweeping.confirmed).Perm (listed ::
                    (sweeping.unchecked ++ sweeping.confirmed.eraseIdx (k - sweeping.unchecked.length))) :=
                  ((perm_cons_eraseIdx confirmed).append_left _).trans List.perm_middle
                intro key
                exact (deleted.map Listed.key).mem_iff.trans (by simp [Sweep.keys])
              · intro other member entry present
                apply old other member entry
                rw [without.lookup] at present
                split at present
                · cases present
                · exact present

end

/-! Programs that only read. -/

section

variable {env : Externals}

theorem readHead_reads (chainId : UInt64) : (readHead env chainId).Asks StoreOp.Reads := by
  apply Prog.Asks.bind (Prog.asks_request trivial)
  intro found
  cases found with
  | none => trivial
  | some bytes =>
      apply Prog.asks_ofExcept_bind
      intro head _
      split <;> trivial

theorem fetch_reads (reference : ObjectRef) : (fetch env.toPrimitives reference).Asks StoreOp.Reads := by
  unfold fetch
  dsimp only
  split
  · trivial
  · apply Prog.Asks.bind (Prog.asks_request trivial)
    intro bytes
    split <;> trivial

theorem withFetch_reads {α : Type} (code : Codec α) : (withFetch env.toPrimitives code).Asks StoreOp.Reads :=
  Prog.Asks.lift (fun reference => (fetch_reads reference).attempt) code

theorem reachableRuns_reads (runs : List Run) (live : List Key) :
    (reachableRuns env runs live).Asks StoreOp.Reads := by
  induction runs generalizing live with
  | nil => trivial
  | cons run runs ih =>
      apply Prog.asks_ofExcept_bind
      intro input _
      dsimp only
      split
      · exact ih live
      · apply Prog.asks_ofExcept_bind
        intro reader _
        exact (withFetch_reads _).bind (fun refs => ih _)

theorem keepParents_reads (keep : Nat) (parent : Option ObjectRef) (live : List Key) :
    (keepParents env keep parent live).Asks StoreOp.Reads := by
  induction keep generalizing parent live with
  | zero => trivial
  | succ keep ih =>
      cases parent with
      | none => trivial
      | some reference =>
          apply Prog.Asks.bind (Prog.Asks.attempt (Prog.asks_request trivial))
          intro read
          cases read with
          | error error => trivial
          | ok bytes => exact ih _ _

theorem reachable_reads (head : Head) (keepHeads : Nat) (live : List Key) :
    (reachable env head keepHeads live).Asks StoreOp.Reads :=
  (reachableRuns_reads _ _).bind (fun _ => keepParents_reads _ _ _)

end

/-! Collections. -/

/-- What a collection does once it has read the time. -/
def collectSince (env : Externals) (chainId : UInt64) (keepHeads : Nat) (minAge : Time) (dryRun : Bool)
    (started : Time) : StoreProg GcReport :=
  match collectGarbage env chainId keepHeads minAge dryRun with
  | .call .now next => next started
  | other => other

section

variable {Owner : Type} {env : Externals} {backend : Backend} {owner : Owner} {state : System Owner}

theorem mem_list {directory : Directory} {listed : Listed} :
    listed ∈ state.list directory ↔ directory.holds listed.key = true ∧
      ∃ entry, state.lookup listed.key = some entry ∧ listed.size = entry.bytes.length ∧
        listed.modified = entry.modified := by
  unfold System.list System.lookup
  rw [List.mem_map]
  constructor
  · rintro ⟨⟨key, entry⟩, member, rfl⟩
    rcases List.mem_filter.mp member with ⟨inside, holds⟩
    exact ⟨holds, entry, AList.mem_lookup_iff.mpr inside, rfl, rfl⟩
  · rintro ⟨holds, entry, present, size, stamp⟩
    refine ⟨⟨listed.key, entry⟩, List.mem_filter.mpr ⟨AList.mem_lookup_iff.mp present, holds⟩, ?_⟩
    rcases listed with ⟨key, size', stamp'⟩
    simp only at size stamp
    rw [size, stamp]

/-- The two listings together are the immutable objects. -/
theorem mem_lists {objects summaries : List Listed} {listed : Listed}
    (first : objects.Perm (state.list .objects)) (second : summaries.Perm (state.list .summaries)) :
    listed ∈ objects ++ summaries ↔ listed.key.immutable = true ∧
      ∃ entry, state.lookup listed.key = some entry ∧ listed.size = entry.bytes.length ∧
        listed.modified = entry.modified := by
  have directories : listed.key.immutable = true ↔
      Directory.objects.holds listed.key = true ∨ Directory.summaries.holds listed.key = true := by
    cases listed.key <;> simp [Key.immutable, Directory.holds]
  rw [List.mem_append, first.mem_iff, second.mem_iff, mem_list, mem_list, directories, or_and_right]

variable {chainId : UInt64} {keepHeads : Nat} {minAge : Time} {bytes : VersionedBytes} {head : Head}
  {live final : List Key}

theorem collectGarbage_started (dryRun : Bool) :
    collectGarbage env chainId keepHeads minAge dryRun =
      now.bind (collectSince env chainId keepHeads minAge dryRun) := rfl

/-- Stored, and stamped no later than the grace age before a collection started. -/
def System.Aged (state : System Owner) (started minAge : Time) (key : Key) : Prop :=
  ∃ entry, state.lookup key = some entry ∧ (entry.modified : Int) ≤ (started : Int) - (minAge : Int)

/-- A collection of a store at rest purges the aged immutable objects outside the live set. -/
theorem collectSince_follows {started : Time}
    (read : ((readHead env chainId).run (state.replies env.toPrimitives backend owner)).2 =
      .ok (some (bytes, head)))
    (first : ((reachable env head keepHeads []).run (state.replies env.toPrimitives backend owner)).2 = .ok live)
    (second : ((reachable env head keepHeads live).run (state.replies env.toPrimitives backend owner)).2 =
      .ok final)
    (begun : state.clock ≤ started) :
    (collectSince env chainId keepHeads minAge false started).Follows ((calm env.toPrimitives backend).step owner)
      (fun outcome after => ∃ report doomed, outcome = .ok report ∧ Purged doomed state after ∧
        (∀ key, key ∈ doomed ↔ key.immutable = true ∧ state.Aged started minAge key ∧ key ∉ final) ∧
        (doomed = [] → report.deletedObjects = 0)) (state.tick started) := by
  show Prog.Follows _ _ ((readHead env chainId).bind _) _
  apply Prog.Follows.bind
  apply follows_reads state (readHead_reads chainId)
  intro clock₁ passed₁
  rw [read]
  apply Prog.Follows.bind
  apply follows_reads state (reachable_reads _ _ _)
  intro clock₂ passed₂
  rw [first]
  apply follows_list
  intro objects clock₃ listedObjects passed₃
  apply follows_list
  intro summaries clock₄ listedSummaries passed₄
  apply Prog.Follows.bind
  apply follows_reads state (readHead_reads chainId)
  intro clock₅ passed₅
  rw [read]
  apply Prog.Follows.bind
  apply follows_reads state (reachable_reads _ _ _)
  intro clock₆ passed₆
  rw [second]
  have members := fun listed => @mem_lists _ _ _ _ listed listedObjects listedSummaries
  dsimp only [Prog.resume]
  generalize listing : (((objects ++ summaries).filter (fun listed => decide (listed.key ∉ final))).filter
    (fun listed => decide (¬ (listed.modified : Int) > (started : Int) - (minAge : Int)))) = doomed
  have inDoomed : ∀ listed, listed ∈ doomed ↔ listed.key ∉ final ∧ listed.key.immutable = true ∧
      ∃ entry, state.lookup listed.key = some entry ∧ listed.size = entry.bytes.length ∧
        listed.modified = entry.modified ∧ (entry.modified : Int) ≤ (started : Int) - (minAge : Int) := by
    intro listed
    rw [← listing, List.mem_filter, List.mem_filter, members]
    constructor
    · rintro ⟨⟨⟨immutable, entry, present, size, stamp⟩, outside⟩, aged⟩
      rw [stamp] at aged
      exact ⟨by simpa using outside, immutable, entry, present, size, stamp, by simpa using aged⟩
    · rintro ⟨outside, immutable, entry, present, size, stamp, aged⟩
      refine ⟨⟨⟨immutable, entry, present, size, stamp⟩, by simpa using outside⟩, ?_⟩
      rw [stamp]
      simpa using aged
  have aged : ∀ listed ∈ doomed, ∀ entry, state.lookup listed.key = some entry →
      (entry.modified : Int) ≤ (started : Int) - (minAge : Int) := by
    intro listed member entry present
    rcases (inDoomed listed).mp member with ⟨_, _, found, present', _, _, old⟩
    cases present.symm.trans present'
    exact old
  apply Prog.Follows.bind
  have swept := @sweep_follows Owner env.toPrimitives backend owner (state.tick clock₆)
    ((started : Int) - (minAge : Int)) (2 * doomed.length) ⟨doomed, [], [], 0⟩ (Nat.le_refl _) aged
  have passed : state.clock ≤ clock₆ :=
    begun.trans (passed₁.trans (passed₂.trans (passed₃.trans (passed₄.trans (passed₅.trans passed₆)))))
  have keys : ∀ key, key ∈ doomed.map Listed.key ↔
      key.immutable = true ∧ state.Aged started minAge key ∧ key ∉ final := by
    intro key
    rw [List.mem_map]
    constructor
    · rintro ⟨listed, member, rfl⟩
      rcases (inDoomed listed).mp member with ⟨outside, immutable, entry, present, _, _, old⟩
      exact ⟨immutable, ⟨entry, present, old⟩, outside⟩
    · rintro ⟨immutable, ⟨entry, present, old⟩, outside⟩
      exact ⟨⟨key, entry.bytes.length, entry.modified⟩,
        (inDoomed _).mpr ⟨outside, immutable, entry, present, rfl, rfl, old⟩, rfl⟩
  cases empty : doomed with
  | nil =>
      refine ⟨_, [], rfl, Purged.tick passed, ?_, fun _ => rfl⟩
      rw [empty] at keys
      exact keys
  | cons listed rest =>
      rw [← empty]
      apply swept.weaken
      rintro outcome after ⟨swept', rfl, purged⟩
      refine ⟨_, doomed.map Listed.key, rfl, ?_, keys, ?_⟩
      · have whole : Sweep.keys ⟨doomed, [], [], 0⟩ = doomed.map Listed.key := by
          rw [Sweep.keys, List.append_nil]
        rw [whole] at purged
        exact purged.after_tick passed
      · intro nothing
        rw [empty] at nothing
        cases nothing

/-- A collection of a store at rest purges the immutable objects outside the live set,
if none of them is young. -/
theorem collectGarbage_follows
    (read : ((readHead env chainId).run (state.replies env.toPrimitives backend owner)).2 =
      .ok (some (bytes, head)))
    (first : ((reachable env head keepHeads []).run (state.replies env.toPrimitives backend owner)).2 = .ok live)
    (second : ((reachable env head keepHeads live).run (state.replies env.toPrimitives backend owner)).2 =
      .ok final)
    (old : ∀ key entry, key.immutable = true → state.lookup key = some entry →
      entry.modified + minAge ≤ state.clock) :
    (collectGarbage env chainId keepHeads minAge false).Follows ((calm env.toPrimitives backend).step owner)
      (fun outcome after => ∃ report doomed, outcome = .ok report ∧ Purged doomed state after ∧
        (∀ key, key ∈ doomed ↔ key.immutable = true ∧ (state.lookup key).isSome = true ∧ key ∉ final) ∧
        (doomed = [] → report.deletedObjects = 0)) state := by
  rw [collectGarbage_started]
  apply follows_now
  intro started begun
  have aged : ∀ key, key.immutable = true →
      (state.Aged started minAge key ↔ (state.lookup key).isSome = true) := by
    intro key immutable
    constructor
    · rintro ⟨entry, present, _⟩
      rw [present]
      rfl
    · intro isSome
      rcases Option.isSome_iff_exists.mp isSome with ⟨entry, present⟩
      have settled : entry.modified + minAge ≤ started := (old key entry immutable present).trans begun
      exact ⟨entry, present, Int.le_sub_right_of_add_le (by exact_mod_cast settled)⟩
  apply (collectSince_follows read first second begun).weaken
  rintro outcome after ⟨report, doomed, done, purged, inDoomed, none⟩
  refine ⟨report, doomed, done, purged, ?_, none⟩
  intro key
  rw [inDoomed]
  constructor
  · rintro ⟨immutable, old', outside⟩
    exact ⟨immutable, (aged key immutable).mp old', outside⟩
  · rintro ⟨immutable, isSome, outside⟩
    exact ⟨immutable, (aged key immutable).mpr isSome, outside⟩

end

end Fossil
