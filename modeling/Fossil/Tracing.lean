import Fossil.Emitted
import Fossil.RunGraph

/-! What the reads of a merge can be answered with.

While a merge runs, its own uploads are in the store too. A page or a leaf that was not
stored before the merge began can be answered with one of them, but those hold records
the merge has sent already. The reading cursor has given them too, so it stops at its order
checks. A merge that goes through has read the store as it was. -/

namespace Fossil

/-- A read of the merge, with these records sent so far: bytes stored before the merge or
emitted since, found under the digest that was asked for. -/
def ReadStep (env : Primitives) (base : ArchiveSystem) (sent : List Record)
    (reference : ObjectRef) (_ : Unit) (reply : Result Bytes) (_ : Unit) : Prop :=
  ∀ bytes, reply = .ok bytes →
    (∃ other : ObjectRef, other.digest = reference.digest ∧ other.Accepts env bytes) ∧
    (base.content (.object reference.digest) = some bytes ∨ ∃ object ∈ emitted env sent, object.bytes = bytes)

/-- A read that succeeds, as it does on these replies. -/
def FoundStep (replies : ObjectRef → Result Bytes)
    (reference : ObjectRef) (_ : Unit) (reply : Result Bytes) (_ : Unit) : Prop :=
  reply = replies reference ∧ ∃ bytes, reply = .ok bytes

section

variable {env : Externals} {backend : Backend} {owner : Call} {base : ArchiveSystem} {sent : List Record}

theorem ReadStep.found {reference : ObjectRef} {bytes : Bytes}
    (replied : ReadStep env.toPrimitives base sent reference () (.ok bytes) ())
    (verified : verifyObject env.toPrimitives reference bytes = .ok ()) :
    base.view env.toPrimitives backend owner reference = .ok bytes ∨
      ∃ object ∈ emitted env.toPrimitives sent, object.bytes = bytes := by
  obtain ⟨⟨other, same, valid, length, _⟩, origin⟩ := replied bytes rfl
  obtain ⟨agrees, _⟩ := guard_eq_ok.mp verified
  simp only [not_or, not_not] at agrees valid
  refine origin.imp_left (fun stored => view_eq_ok.mpr ⟨⟨?_, agrees.1.symm, agrees.2.symm⟩, stored⟩)
  rw [← same, agrees.1, length]
  simp only [not_or]
  exact valid

section Cursors

variable (env backend owner base sent) in
/-- Every read of the program that goes through finds what was stored before. -/
abbrev Faithful {α : Type} (code : Codec α) : Prop :=
  code.Tracks (ReadStep env.toPrimitives base sent) (FoundStep (base.view env.toPrimitives backend owner)) ()

variable (env base sent) in
abbrev Refused {α : Type} (code : Codec α) : Prop := code.Stops (ReadStep env.toPrimitives base sent) ()

/-- Bytes that are decoded next were stored before, unless the decoder lets through what
the merge itself has made. -/
theorem faithful_fetchAs {α : Type} {message : String} {reference : ObjectRef} {next : Bytes → Codec α}
    (checked : ∀ bytes, verifyObject env.toPrimitives reference bytes ≠ .ok () →
      Refused env base sent (next bytes))
    (made : ∀ object ∈ emitted env.toPrimitives sent, Refused env base sent (next object.bytes))
    (rest : ∀ bytes, Faithful env backend owner base sent (next bytes)) :
    Faithful env backend owner base sent ((fetchAs message reference).bind next) := by
  rintro reply ⟨⟩ replied
  cases reply with
  | error error => exact fun _ => nofun
  | ok bytes =>
      by_cases verified : verifyObject env.toPrimitives reference bytes = .ok ()
      · rcases @ReadStep.found _ backend owner _ _ _ _ replied verified with known | ⟨object, mine, rfl⟩
        · apply (rest bytes).weaken
          intro outcome after reaches value done
          exact ⟨.ok bytes, (), ⟨known.symm, bytes, rfl⟩, reaches value done⟩
        · exact (made object mine).weaken (fun _ _ never value done => absurd done (never value))
      · exact (checked bytes verified).weaken (fun _ _ never value done => absurd done (never value))

theorem refused_fetchAs {α : Type} {message : String} {reference : ObjectRef} {next : Bytes → Codec α}
    (rest : ∀ bytes, Refused env base sent (next bytes)) :
    Refused env base sent ((fetchAs message reference).bind next) := by
  rintro reply ⟨⟩ _
  cases reply with
  | error error => exact fun _ => nofun
  | ok bytes => exact rest bytes

theorem faithful_guard {α : Type} {condition : Prop} [Decidable condition] {error : Error} {code : Codec α}
    (rest : ¬ condition → Faithful env backend owner base sent code) :
    Faithful env backend owner base sent (if condition then .fail error else code) := by
  split
  · exact Prog.tracks_fail error ()
  · next holds => exact rest holds

theorem refused_guard {α : Type} {condition : Prop} [Decidable condition] {error : Error} {code : Codec α}
    (rest : ¬ condition → Refused env base sent code) :
    Refused env base sent (if condition then .fail error else code) := by
  split
  · exact Prog.stops_fail error ()
  · next holds => exact rest holds

theorem verified_of_decodeIndex {reference : ObjectRef} {bytes magic : Bytes} {shard : Fin 16}
    {fences : List Fence} (decoded : decodeIndex env.toPrimitives reference bytes shard magic = .ok fences) :
    verifyObject env.toPrimitives reference bytes = .ok () := by
  obtain ⟨_, verified, _⟩ := encodeIndex_decodeIndex decoded
  exact verified

theorem verified_of_decodeDataPage {reference : ObjectRef} {bytes : Bytes} {shard : Fin 16}
    {records : List Record} (decoded : decodeDataPage env.toPrimitives reference bytes shard = .ok records) :
    verifyObject env.toPrimitives reference bytes = .ok () := by
  obtain ⟨_, opened, _⟩ := bind_eq_ok.mp decoded
  obtain ⟨_, checked⟩ := guard_eq_ok.mp opened
  obtain ⟨_, verified, _⟩ := bind_eq_ok.mp checked
  exact verified

/-- No page can follow one that starts above it. -/
theorem refused_loadPage {cursor : PartitionCursor} {shard : Fin 16} {fence : Fence}
    (above : ∃ last ∈ cursor.previous, fence.version ≤ last) :
    Refused env base sent (cursor.loadPage env.toPrimitives shard fence) := by
  unfold PartitionCursor.loadPage
  apply refused_guard
  intro _
  apply refused_guard
  intro _
  apply refused_fetchAs
  intro bytes
  apply Prog.stops_ofExcept_bind
  intro records _
  apply refused_guard
  intro _
  rw [if_pos above]
  exact Prog.stops_fail _ ()

theorem faithful_loadPage (lossless : env.Lossless) {cursor : PartitionCursor} {shard : Fin 16} {fence : Fence}
    (below : ∀ record ∈ sent, ∃ last ∈ cursor.previous, record.version ≤ last) :
    Faithful env backend owner base sent (cursor.loadPage env.toPrimitives shard fence) := by
  unfold PartitionCursor.loadPage
  apply faithful_guard
  intro _
  apply faithful_guard
  intro _
  apply faithful_fetchAs
  · intro bytes mismatch
    apply Prog.stops_ofExcept_bind
    exact fun records decoded => absurd (verified_of_decodeDataPage decoded) mismatch
  · intro object mine
    apply Prog.stops_ofExcept_bind
    intro records decoded
    apply refused_guard
    intro entry
    rw [not_not] at entry
    obtain ⟨first, front, same⟩ := Option.map_eq_some_iff.mp entry
    have early := (emitted_made object mine).page_read lossless decoded first (List.mem_of_head? front)
    rw [if_pos (same ▸ below first early)]
    exact Prog.stops_fail _ ()
  · intro bytes
    apply Prog.tracks_ofExcept_bind
    intro records _
    apply faithful_guard
    intro _
    apply faithful_guard
    exact fun _ => Prog.tracks_ret _ ()

/-- The rest of a round once the next leaf is in place. -/
def PartitionCursor.loadNext (env : Primitives) (shard : Fin 16) (placed : PartitionCursor) :
    Codec PartitionCursor :=
  match placed.leaf[placed.fencePos]? with
  | none => .ret placed
  | some fence => placed.loadPage env shard fence

theorem faithful_loadNext (lossless : env.Lossless) {cursor : PartitionCursor} {shard : Fin 16}
    (below : ∀ record ∈ sent, ∃ last ∈ cursor.previous, record.version ≤ last) :
    Faithful env backend owner base sent (cursor.loadNext env.toPrimitives shard) := by
  unfold PartitionCursor.loadNext
  split
  · exact Prog.tracks_ret _ ()
  · exact faithful_loadPage lossless below

theorem faithful_advanceLeaf (lossless : env.Lossless) {cursor : PartitionCursor} {shard : Fin 16}
    (below : ∀ record ∈ sent, ∃ last ∈ cursor.previous, record.version ≤ last) :
    Faithful env backend owner base sent ((cursor.advanceLeaf env.toPrimitives shard).bind
      (PartitionCursor.loadNext env.toPrimitives shard)) := by
  unfold PartitionCursor.advanceLeaf
  split
  · exact faithful_loadNext lossless below
  · dsimp only
    split
    · exact faithful_loadNext lossless below
    · next parent _ =>
        simp only [Prog.bind_eq, Prog.liftM_eq, Prog.bind_assoc]
        apply Prog.tracks_ofExcept_bind
        intro _ _
        apply faithful_fetchAs
        · intro bytes mismatch
          apply Prog.stops_ofExcept_bind
          exact fun fences decoded => absurd (verified_of_decodeIndex decoded) mismatch
        · intro object mine
          apply Prog.stops_ofExcept_bind
          intro fences decoded
          split
          · exact Prog.stops_fail _ ()
          · next entry =>
              rw [not_not] at entry
              obtain ⟨fence, front, same⟩ := Option.map_eq_some_iff.mp entry
              obtain ⟨record, early, version⟩ := (emitted_made object mine).leaf_read decoded front
              have next : fences[0]? = some fence := by rw [← List.head?_eq_getElem?, front]
              simp only [Prog.ret_bind, PartitionCursor.loadNext, next]
              exact refused_loadPage (version ▸ below record early)
        · intro bytes
          apply Prog.tracks_ofExcept_bind
          intro fences _
          split
          · exact Prog.tracks_fail _ ()
          · exact faithful_loadNext lossless below

/-- Before anything is sent every read finds what was stored. -/
theorem faithful_openRoot {cursor : PartitionCursor} {shard : Fin 16} :
    Faithful env backend owner base [] (cursor.openRoot env.toPrimitives shard) := by
  unfold PartitionCursor.openRoot
  split
  · exact Prog.tracks_ret _ ()
  · split
    · exact Prog.tracks_ret _ ()
    · apply Prog.tracks_ofExcept_bind
      intro _ _
      apply faithful_fetchAs
      · intro bytes mismatch
        split
        · apply Prog.stops_ofExcept_bind
          exact fun fences decoded => absurd (verified_of_decodeIndex decoded) mismatch
        · apply Prog.stops_ofExcept_bind
          exact fun fences decoded => absurd (verified_of_decodeIndex decoded) mismatch
      · exact fun object none => nomatch none
      · intro bytes
        split
        · exact Prog.tracks_ofExcept_bind (fun _ _ => Prog.tracks_ret _ ())
        · exact Prog.tracks_ofExcept_bind (fun _ _ => Prog.tracks_ret _ ())

theorem ready_eq (cursor : PartitionCursor) (shard : Fin 16) :
    cursor.ready env.toPrimitives shard = (cursor.openRoot env.toPrimitives shard).bind (fun started =>
      if started.page ≠ [] then .ret started
      else (started.advanceLeaf env.toPrimitives shard).bind (PartitionCursor.loadNext env.toPrimitives shard)) :=
  rfl

/-- The cursor is started, and has given a record at or above these, unless it needs no read. -/
structure PartitionCursor.Past (sent : List Record) (cursor : PartitionCursor) : Prop where
  initialized : cursor.initialized = true
  past : cursor.page = [] → cursor.Spent ∨ ∀ record ∈ sent, ∃ last ∈ cursor.previous, record.version ≤ last

theorem faithful_ready (lossless : env.Lossless) {cursor : PartitionCursor} {shard : Fin 16}
    (past : sent ≠ [] → cursor.Past sent) :
    Faithful env backend owner base sent (cursor.ready env.toPrimitives shard) := by
  rw [ready_eq]
  by_cases nothing : sent = []
  · subst nothing
    apply faithful_openRoot.bind
    intro started _ _
    split
    · exact Prog.tracks_ret _ ()
    · exact faithful_advanceLeaf lossless nofun
  · obtain ⟨initialized, past⟩ := past nothing
    rw [PartitionCursor.openRoot, if_pos initialized, Prog.ret_bind]
    split
    · exact Prog.tracks_ret _ ()
    · next shown =>
        rcases past (not_not.mp shown) with spent | below
        · rw [PartitionCursor.advanceLeaf, if_neg (not_not.mpr spent.leaf)]
          dsimp only
          rw [spent.parents]
          exact Prog.tracks_ret _ ()
        · exact faithful_advanceLeaf lossless below

theorem faithful_readyAll (lossless : env.Lossless) {cursors : List (Fin 16 × PartitionCursor)}
    (past : sent ≠ [] → ∀ cursor ∈ cursors, cursor.2.Past sent) :
    Faithful env backend owner base sent (readyAll env.toPrimitives cursors) := by
  induction cursors with
  | nil => exact Prog.tracks_ret _ ()
  | cons cursor cursors ih =>
      apply (faithful_ready lossless (fun some => past some cursor List.mem_cons_self)).bind
      intro filled _ _
      apply (ih (fun some other member => past some other (List.mem_cons_of_mem _ member))).bind
      exact fun _ _ _ => Prog.tracks_ret _ ()

/-- A call of the scanner that gives no error has read the store as it was. -/
theorem next_faithful (lossless : env.Lossless) {scanner : RunScanner}
    (past : sent ≠ [] → ∀ cursor ∈ scanner.cursors, cursor.2.Past sent) :
    (scanner.next env.toPrimitives).Follows (ReadStep env.toPrimitives base sent)
      (fun outcome _ => ∀ head rest, outcome = .ok (.ok head, rest) →
        (scanner.next env.toPrimitives).Reaches (FoundStep (base.view env.toPrimitives backend owner)) ()
          (.ok head, rest) ()) () := by
  unfold RunScanner.next
  split
  · rintro _ _ ⟨⟩
  · apply Prog.Follows.bind
    apply Prog.Follows.attempt
    apply Prog.Follows.weaken (@faithful_readyAll _ backend owner base _ lossless _ past)
    intro outcome _ reaches
    cases outcome with
    | error error => rintro _ _ ⟨⟩
    | ok cursors =>
        have here := (reaches cursors rfl).attempt
        dsimp only [Prog.resume]
        cases found : leastFront Record.version (cursors.map (fun cursor => cursor.2.page.head?)) with
        | none =>
            rintro _ _ ⟨⟩
            exact Prog.reaches_bind.mpr ⟨_, _, here, by simp [found, Prog.Reaches]⟩
        | some taken =>
            rintro _ _ ⟨⟩
            exact Prog.reaches_bind.mpr ⟨_, _, here, by simp [found, Prog.Reaches]⟩

end Cursors

end

end Fossil
