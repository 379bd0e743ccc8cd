import Fossil.Tracing
import Fossil.MergeRuns

/-! The inputs of a merge that goes through.

Its producer has read the store as it was before the merge. Every input has then been
scanned to its end, so the pages listed for it are all stored and are enough for the
records it gave. -/

namespace Fossil

/-- The producer as the tasks around it answer it. -/
def OpenStep (env : Primitives) (base : ArchiveSystem) :
    (op : MergeOp) → List Record → op.Resp → List Record → Prop
  | .fetch reference, sent, reply, after => ReadStep env base sent reference () reply () ∧ after = sent
  | .send record, sent, _, after => after = sent ++ [record]

/-- The producer with fixed replies and every record accepted. -/
def SoundStep (replies : ObjectRef → Result Bytes) :
    (op : MergeOp) → List Record → op.Resp → List Record → Prop
  | .fetch reference, sent, reply, after => FoundStep replies reference () reply () ∧ after = sent
  | .send record, sent, reply, after => reply = .ok () ∧ after = sent ++ [record]

theorem reaches_mergeFetch {α : Type} {replies : ObjectRef → Result Bytes} {code : Codec α}
    {sent after : List Record} {value : α} :
    (mergeFetch code).Reaches (SoundStep replies) sent value after ↔
      code.Reaches (FoundStep replies) () value () ∧ after = sent := by
  induction code with
  | ret result => exact ⟨fun ⟨same, kept⟩ => ⟨⟨same, rfl⟩, kept.symm⟩, fun ⟨⟨same, _⟩, kept⟩ => ⟨same, kept.symm⟩⟩
  | fail error => exact ⟨fun reaches => reaches.elim, fun reaches => reaches.1.elim⟩
  | call reference next ih =>
      constructor
      · rintro ⟨reply, _, ⟨found, rfl⟩, reaches⟩
        obtain ⟨rest, same⟩ := (ih reply).mp reaches
        exact ⟨⟨reply, (), found, rest⟩, same⟩
      · rintro ⟨⟨reply, _, found, rest⟩, same⟩
        exact ⟨reply, sent, ⟨found, rfl⟩, (ih reply).mpr ⟨rest, same⟩⟩

theorem follows_mergeFetch {α : Type} {env : Primitives} {base : ArchiveSystem} {code : Codec α}
    {post : Except Error α → Unit → Prop} {sent : List Record}
    (follows : code.Follows (ReadStep env base sent) post ()) :
    (mergeFetch code).Follows (OpenStep env base) (fun outcome after => post outcome () ∧ after = sent) sent := by
  induction code with
  | ret value => exact ⟨follows, rfl⟩
  | fail error => exact ⟨follows, rfl⟩
  | call reference next ih =>
      rintro reply after ⟨replied, rfl⟩
      exact ih reply (follows reply () replied)

/-! One input. -/

section Sources

variable {env : Primitives} {replies : ObjectRef → Result Bytes} {reader : RunReader}
  {source : RunScanner × Option Record} {out sent : List Record} {given : Fin 16 → List Record}

variable (env replies) in
/-- An input with its next record, and all it has given so far. At its end nothing is left. -/
structure Source (reader : RunReader) (source : RunScanner × Option Record) (out : List Record)
    (given : Fin 16 → List Record) : Prop where
  traces : source.1.Traces env replies reader out given
  head : ∀ record ∈ source.2, out.getLast? = some record
  ended : source.2 = none → ∀ cursor ∈ source.1.cursors, cursor.2.Spent ∧ ∃ pages leaves,
    cursor.2.Walked env replies cursor.1 (reader.index cursor.1) (given cursor.1) pages leaves

/-- The cursors of an input are past what was sent before its next record. -/
theorem Source.past {record : Record} (known : Source env replies reader source out given)
    (head : source.2 = some record) (below : ∀ early ∈ sent, early.version ≤ record.version) :
    ∀ cursor ∈ source.1.cursors, cursor.2.Past sent := by
  intro cursor member
  have last : record.version ∈ out.getLast?.map Record.version := by
    rw [known.head record head]
    rfl
  have clear := known.traces.clear _ last cursor member
  rcases known.traces.traced cursor member with ⟨fresh, nothing⟩ | ⟨pages, leaves, walked⟩
  · rcases clear.empty (by rw [fresh]; rfl) with spent | popped
    · have started := spent.initialized
      rw [fresh] at started
      cases started
    · rw [nothing] at popped
      cases popped
  · refine ⟨walked.initialized, ?_⟩
    intro empty
    apply (clear.empty empty).imp_right
    intro popped early member
    exact ⟨record.version, walked.previous.trans popped, below early member⟩

/-- An input pulled from a scanner. -/
theorem Source.pulled {scanner : RunScanner} {after : List Record}
    (traces : scanner.Traces env replies reader out given)
    (reaches : (pull env scanner).Reaches (SoundStep replies) sent source after) :
    after = sent ∧ ∃ given', Source env replies reader source (out ++ source.2.toList) given' := by
  obtain ⟨⟨result, rest⟩, _, fetched, ends⟩ := Prog.reaches_bind.mp reaches
  obtain ⟨found, rfl⟩ := reaches_mergeFetch.mp fetched
  obtain ⟨head, done, rfl, rfl⟩ := Prog.reaches_ofExcept_bind.mp ends
  obtain ⟨result', rest', called, kept⟩ := traces.next
  have same := (found.run (fun _ _ _ _ holds => holds.1)).symm.trans called
  cases same
  subst done
  refine ⟨rfl, ?_⟩
  rcases kept with ⟨_, wrong, _⟩ | ⟨done, traces', ended⟩ | ⟨record, given', done, traces'⟩
  · cases wrong
  · cases done
    refine ⟨given, ?_, nofun, fun _ => ended⟩
    simpa using traces'
  · cases done
    exact ⟨given', traces', by simp, nofun⟩

end Sources

section Producer

variable {env : Externals} {backend : Backend} {owner : Call} {base : ArchiveSystem} {sent : List Record}

theorem tracks_pull (lossless : env.Lossless) {scanner : RunScanner}
    (past : sent ≠ [] → ∀ cursor ∈ scanner.cursors, cursor.2.Past sent) :
    (pull env.toPrimitives scanner).Tracks (OpenStep env.toPrimitives base)
      (SoundStep (base.view env.toPrimitives backend owner)) sent := by
  apply Prog.Follows.bind
  apply (follows_mergeFetch (@next_faithful _ backend owner base _ lossless _ past)).weaken
  rintro outcome after ⟨reaches, rfl⟩
  cases outcome with
  | error error => exact fun _ => nofun
  | ok pulled =>
      obtain ⟨result, rest⟩ := pulled
      cases result with
      | error error => exact fun _ => nofun
      | ok head =>
          rintro _ ⟨⟩
          exact Prog.reaches_bind.mpr ⟨_, _, reaches_mergeFetch.mpr ⟨reaches head rest rfl, rfl⟩, rfl, rfl⟩

theorem tracks_sendRecord (record : Record) :
    (sendRecord record).Tracks (OpenStep env.toPrimitives base)
      (SoundStep (base.view env.toPrimitives backend owner)) sent := by
  rintro reply after rfl
  cases reply with
  | error error => exact fun _ => nofun
  | ok _ =>
      rintro _ ⟨⟩
      exact ⟨.ok (), sent ++ [record], ⟨rfl, rfl⟩, rfl, rfl⟩

end Producer

/-! All inputs together. -/

section Inputs

variable {env : Primitives} {replies : ObjectRef → Result Bytes} {sent : List Record}
  {inputs : List (RunReader × List Record)} {sources : Sources}

variable (env replies) in
/-- The inputs of the loop: what each has given is sent or is its next record, and no next
record is below a sent one. -/
structure Feeding (inputs : List (RunReader × List Record)) (sources : Sources) (sent : List Record) : Prop where
  each : List.Forall₂ (fun input source => ∃ given, Source env replies input.1 source input.2 given) inputs sources
  above : ∀ source ∈ sources, ∀ record ∈ source.2, ∀ early ∈ sent, early.version ≤ record.version
  count : (inputs.map (fun input => input.2.length)).sum =
    sent.length + (sources.map (fun source => source.2.toList.length)).sum

theorem sum_map_set {α : Type} (size : α → Nat) {items : List α} {index : Nat} {old : α}
    (found : items[index]? = some old) (new : α) :
    ((items.set index new).map size).sum + size old = (items.map size).sum + size new := by
  induction items generalizing index with
  | nil => cases found
  | cons item items ih =>
      cases index with
      | zero =>
          cases found
          simp only [List.set_cons_zero, List.map_cons, List.sum_cons]
          omega
      | succ index =>
          have rest := ih found
          simp only [List.set_cons_succ, List.map_cons, List.sum_cons]
          omega

theorem Alone.least {heads : List (Option Record)} {index : Nat} {record item : Record}
    (alone : Alone heads (some (index, record))) (shown : some item ∈ heads) : record.version ≤ item.version := by
  obtain ⟨place, found⟩ := List.getElem?_of_mem shown
  by_cases same : place = index
  · subst same
    cases alone.1.symm.trans found
    exact le_refl _
  · exact le_of_lt (alone.2 place item found same)

/-- One round of the loop. -/
theorem Feeding.step {index : Nat} {record : Record} {source source' : RunScanner × Option Record}
    {after : List Record} (feeding : Feeding env replies inputs sources sent)
    (chosen : chooseHead (sources.map Prod.snd) 0 none = .ok (some (index, record)))
    (here : sources[index]? = some source)
    (reaches : (pull env source.1).Reaches (SoundStep replies) sent source' after) :
    after = sent ∧ source.2 = some record ∧ ∃ inputs', inputs'.map Prod.fst = inputs.map Prod.fst ∧
      Feeding env replies inputs' (sources.set index source') (sent ++ [record]) := by
  have alone := Alone.of_chosen chosen
  have head : source.2 = some record := by
    have front := alone.1
    rw [List.getElem?_map, here] at front
    exact Option.some.inj front
  obtain ⟨⟨reader, out⟩, there, given, known⟩ := forall₂_getElem? feeding.each here
  obtain ⟨same, given', pulled⟩ := Source.pulled known.traces reaches
  refine ⟨same, head, inputs.set index (reader, out ++ source'.2.toList), ?_, ?_, ?_, ?_⟩
  · obtain ⟨bound, there⟩ := List.getElem?_eq_some_iff.mp there
    rw [List.map_set, ← List.set_getElem_self (show index < (inputs.map Prod.fst).length by simpa using bound)]
    simp [there]
  · rw [List.set_eq_modify]
    exact forall₂_modify_set feeding.each (fun _ _ holds => holds) here (fun _ _ => ⟨given', pulled⟩)
  · have lowest : ∀ early ∈ sent ++ [record], early.version ≤ record.version := by
      intro early member
      rcases List.mem_append.mp member with before | atEnd
      · exact feeding.above source (List.mem_of_getElem? here) record head early before
      · rw [List.mem_singleton.mp atEnd]
    intro other member item shown early sentEarly
    refine le_trans (lowest early sentEarly) ?_
    rcases List.mem_or_eq_of_mem_set member with old | rfl
    · exact alone.least (by rw [← shown]; exact List.mem_map_of_mem old)
    · have sorted := pulled.traces.sorted
      rw [shown] at sorted
      exact le_of_lt ((List.pairwise_append.mp sorted).2.2 record
        (List.mem_of_getLast? (known.head record head)) item (List.mem_singleton.mpr rfl))
  · have left := sum_map_set (fun input : RunReader × List Record => input.2.length) there
      (reader, out ++ source'.2.toList)
    have right := sum_map_set (fun source : RunScanner × Option Record => source.2.toList.length) here source'
    have total := feeding.count
    simp only [List.length_append, head, Option.toList_some, List.length_singleton] at left right ⊢
    omega

theorem reaches_sendRecord {record : Record} {after : List Record} {value : Unit} :
    (sendRecord record).Reaches (SoundStep replies) sent value after ↔ after = sent ++ [record] := by
  constructor
  · rintro ⟨reply, middle, ⟨rfl, rfl⟩, _, rfl⟩
    rfl
  · rintro rfl
    exact ⟨.ok (), _, ⟨rfl, rfl⟩, rfl, rfl⟩

theorem pull_sent {scanner : RunScanner} {source : RunScanner × Option Record} {after : List Record}
    (reaches : (pull env scanner).Reaches (SoundStep replies) sent source after) : after = sent := by
  obtain ⟨⟨result, rest⟩, _, fetched, ends⟩ := Prog.reaches_bind.mp reaches
  obtain ⟨_, rfl⟩ := reaches_mergeFetch.mp fetched
  obtain ⟨_, _, _, rfl⟩ := Prog.reaches_ofExcept_bind.mp ends
  rfl

/-- The loop ends when no input shows a record, and goes round otherwise. -/
theorem reaches_mergeLoop {fuel : Nat} {lastKey : Option Bytes} {summary value : SummaryBuilder}
    {after : List Record} :
    (mergeLoop env (fuel + 1) sources lastKey summary).Reaches (SoundStep replies) sent value after ↔
      (chooseHead (sources.map Prod.snd) 0 none = .ok none ∧ summary = value ∧ sent = after) ∨
      ∃ index record source source', chooseHead (sources.map Prod.snd) 0 none = .ok (some (index, record)) ∧
        sources[index]? = some source ∧ (pull env source.1).Reaches (SoundStep replies) sent source' sent ∧
        (mergeLoop env fuel (sources.set index source') (some record.key)
          (if lastKey = some record.key then summary else summary.add env record.key)).Reaches
          (SoundStep replies) (sent ++ [record]) value after := by
  rw [mergeLoop]
  simp only [Prog.bind_eq, Prog.liftM_eq]
  rw [Prog.reaches_ofExcept_bind]
  constructor
  · rintro ⟨chosen, found, reaches⟩
    rcases chosen with _ | ⟨index, record⟩
    · exact .inl ⟨found, reaches⟩
    · right
      have alone := Alone.of_chosen found
      have front := alone.1
      rw [List.getElem?_map] at front
      obtain ⟨source, here, _⟩ := Option.map_eq_some_iff.mp front
      dsimp only at reaches
      rw [here] at reaches
      obtain ⟨source', middle, pulled, rest⟩ := Prog.reaches_bind.mp reaches
      obtain rfl := pull_sent pulled
      obtain ⟨_, later, stepped, rest⟩ := Prog.reaches_bind.mp rest
      obtain rfl := reaches_sendRecord.mp stepped
      exact ⟨index, record, source, source', found, here, pulled, rest⟩
  · rintro (⟨found, ends⟩ | ⟨index, record, source, source', found, here, pulled, rest⟩)
    · exact ⟨none, found, ends⟩
    · refine ⟨_, found, ?_⟩
      dsimp only
      rw [here]
      apply Prog.reaches_bind.mpr
      refine ⟨source', sent, pulled, ?_⟩
      exact Prog.reaches_bind.mpr ⟨(), _, reaches_sendRecord.mpr rfl, rest⟩

/-- A loop that ends leaves every input at its end. -/
theorem Feeding.ends {fuel : Nat} {lastKey : Option Bytes} {summary value : SummaryBuilder} {after : List Record}
    (feeding : Feeding env replies inputs sources sent)
    (reaches : (mergeLoop env fuel sources lastKey summary).Reaches (SoundStep replies) sent value after) :
    ∃ inputs' sources', inputs'.map Prod.fst = inputs.map Prod.fst ∧
      Feeding env replies inputs' sources' after ∧ ∀ source ∈ sources', source.2 = none := by
  induction fuel generalizing inputs sources sent lastKey summary with
  | zero => exact reaches.elim
  | succ fuel ih =>
      rcases reaches_mergeLoop.mp reaches with ⟨found, _, rfl⟩ | ⟨index, record, source, source', found, here, pulled, rest⟩
      · have none := Alone.of_chosen found
        exact ⟨inputs, sources, rfl, feeding, fun source member => none _ (List.mem_map_of_mem member)⟩
      · obtain ⟨_, _, inputs', same, feeding'⟩ := feeding.step found here pulled
        obtain ⟨final, sources', same', done⟩ := ih feeding' rest
        exact ⟨final, sources', same'.trans same, done⟩

/-- The loop takes a round for each record, so any fuel above their number will do. -/
theorem mergeLoop_refuel {fuel : Nat} {lastKey : Option Bytes} {summary value : SummaryBuilder}
    {after : List Record}
    (reaches : (mergeLoop env fuel sources lastKey summary).Reaches (SoundStep replies) sent value after) :
    sent.length ≤ after.length ∧ ∀ more, after.length - sent.length < more →
      (mergeLoop env more sources lastKey summary).Reaches (SoundStep replies) sent value after := by
  induction fuel generalizing sources sent lastKey summary with
  | zero => exact reaches.elim
  | succ fuel ih =>
      rcases reaches_mergeLoop.mp reaches with ⟨found, rfl, rfl⟩ | ⟨index, record, source, source', found, here, pulled, rest⟩
      · refine ⟨le_refl _, ?_⟩
        rintro (_ | more) enough
        · omega
        · exact reaches_mergeLoop.mpr (.inl ⟨found, rfl, rfl⟩)
      · obtain ⟨longer, refuel⟩ := ih rest
        rw [List.length_append, List.length_singleton] at longer refuel
        refine ⟨by omega, ?_⟩
        rintro (_ | more) enough
        · omega
        · exact reaches_mergeLoop.mpr (.inr ⟨index, record, source, source', found, here, pulled,
            refuel more (by omega)⟩)

theorem feeding_pullAll {readers : List RunReader} {after : List Record}
    (reaches : (pullAll env (readers.map RunReader.scanner)).Reaches (SoundStep replies) [] sources after) :
    after = [] ∧ ∃ inputs, inputs.map Prod.fst = readers ∧ Feeding env replies inputs sources [] := by
  induction readers generalizing sources with
  | nil =>
      obtain ⟨rfl, rfl⟩ := reaches
      exact ⟨rfl, [], rfl, .nil, nofun, rfl⟩
  | cons reader readers ih =>
      obtain ⟨source, _, pulled, rest⟩ := Prog.reaches_bind.mp reaches
      obtain ⟨rfl, given, known⟩ := Source.pulled reader.scanner_traces pulled
      obtain ⟨others, _, later, rfl, rfl⟩ := Prog.reaches_bind.mp rest
      obtain ⟨rfl, inputs, same, feeding⟩ := ih later
      refine ⟨rfl, (reader, source.2.toList) :: inputs, by simp [same], .cons ⟨given, known⟩ feeding.each, ?_, ?_⟩
      · exact fun _ _ _ _ _ none => nomatch none
      · have total := feeding.count
        simp only [List.map_cons, List.sum_cons, List.length_nil] at total ⊢
        omega

end Inputs

/-! The pages of an input that has been scanned to its end. -/

section Pages

variable {env : Primitives} {replies : ObjectRef → Result Bytes} {shard : Fin 16} {root : ObjectRef}

theorem decodeCompressed_length {reference : ObjectRef} {bytes decoded : Bytes} {maximum : Nat}
    (opened : decodeCompressed env reference bytes maximum = .ok decoded) : decoded.length ≤ maximum := by
  obtain ⟨_, opened⟩ := guard_eq_ok.mp opened
  obtain ⟨_, _, opened⟩ := bind_eq_ok.mp opened
  obtain ⟨_, opened⟩ := guard_eq_ok.mp opened
  obtain ⟨bound, opened⟩ := guard_eq_ok.mp opened
  obtain ⟨payload, _, opened⟩ := bind_eq_ok.mp opened
  obtain ⟨length, done⟩ := guard_eq_ok.mp opened
  cases done
  simp only [not_or, not_not, not_lt] at bound length
  omega

theorem PageRead.Found.length {page : PageRead} (found : page.Found env replies shard) :
    page.records.length ≤ maxPageRecords := by
  obtain ⟨bytes, _, decoded⟩ := found.decoded
  obtain ⟨payload, opened, parsed⟩ := bind_eq_ok.mp decoded
  obtain ⟨valid, encoded⟩ := encodePayload_parseDataPayload parsed
  obtain ⟨_, rfl⟩ := encodePayload_eq_ok.mp encoded
  have small := decodeCompressed_length opened
  have total := pageBytes_length page.records
  have each := flatMap_recordBytes_length page.records valid.keys
  rw [maxPageRecords, Nat.le_div_iff_mul_le (by decide)]
  omega

theorem walkLeaves_entered {parents : List Fence} {leaves : List (List Fence)}
    (found : List.Forall₂ (LeafFound env replies shard) parents leaves) :
    ∃ refs, ((walkLeaves env shard parents).run replies).2 = .ok (refs, leaves.flatten) := by
  induction found with
  | nil => exact ⟨[], rfl⟩
  | @cons parent fences parents leaves leaf _ ih =>
      obtain ⟨⟨valid, bytes, read, decoded⟩, _⟩ := leaf
      obtain ⟨refs, rest⟩ := ih
      refine ⟨parent.data :: refs, ?_⟩
      rw [walkLeaves]
      simp only [Prog.bind_eq, Prog.liftM_eq, valid, Prog.ofExcept_ok, Prog.ret_bind]
      apply Prog.run_bind_eq_ok.mpr
      refine ⟨bytes, by rw [fetchAs, Prog.run_request, read]; rfl, ?_⟩
      rw [decoded, Prog.ofExcept_ok, Prog.ret_bind]
      exact Prog.run_bind_eq_ok.mpr ⟨_, rest, rfl⟩

/-- A partition whose leaves have all been entered can be walked. -/
theorem walkPartition_entered {leaves : List (List Fence)} (entered : Entered env replies shard root leaves []) :
    ∃ refs, ((walkPartition env shard root).run replies).2 = .ok (refs, leaves.flatten.map Fence.data) := by
  cases entered with
  | empty unused => exact ⟨[], by rw [walkPartition, if_pos unused]; rfl⟩
  | single occupied index =>
      obtain ⟨valid, bytes, read, decoded⟩ := index
      refine ⟨[root], ?_⟩
      rw [walkPartition, if_neg occupied]
      simp only [Prog.bind_eq, Prog.liftM_eq, valid, Prog.ofExcept_ok, Prog.ret_bind]
      apply Prog.run_bind_eq_ok.mpr
      refine ⟨bytes, by rw [fetchAs, Prog.run_request, read]; rfl, ?_⟩
      rw [if_neg (not_internal_of_leaf decoded), decoded]
      simp [Prog.run]
  | several occupied index found =>
      obtain ⟨valid, bytes, read, decoded⟩ := index
      rw [List.append_nil] at decoded
      obtain ⟨refs, walked⟩ := walkLeaves_entered found
      refine ⟨root :: refs, ?_⟩
      rw [walkPartition, if_neg occupied]
      simp only [Prog.bind_eq, Prog.liftM_eq, valid, Prog.ofExcept_ok, Prog.ret_bind]
      apply Prog.run_bind_eq_ok.mpr
      refine ⟨bytes, by rw [fetchAs, Prog.run_request, read]; rfl, ?_⟩
      rw [if_pos (decodeIndex_front decoded), decoded, Prog.ofExcept_ok, Prog.ret_bind]
      exact Prog.run_bind_eq_ok.mpr ⟨_, walked, rfl⟩

/-- A partition walked, with every page of it there, and enough pages for these records. -/
structure Catalogued (env : Primitives) (replies : ObjectRef → Result Bytes) (shard : Fin 16) (root : ObjectRef)
    (given : List Record) (pages : List ObjectRef) : Prop where
  walked : ∃ refs, ((walkPartition env shard root).run replies).2 = .ok (refs, pages)
  stored : ∀ page ∈ pages, ∃ bytes, replies page = .ok bytes
  room : given.length ≤ pages.length * maxPageRecords

theorem PartitionCursor.Walked.listed {cursor : PartitionCursor} {given : List Record} {pages : List PageRead}
    {leaves : List (List Fence)} (walked : cursor.Walked env replies shard root given pages leaves)
    (spent : cursor.Spent) : ∃ listed, Catalogued env replies shard root given listed := by
  have parents : cursor.parents.drop cursor.parentPos = [] :=
    List.drop_eq_nil_of_le (List.getElem?_eq_none_iff.mp spent.parents)
  have fences := walked.fences
  rw [spent.leaf, List.drop_length, List.append_nil] at fences
  have entered := walked.entered
  rw [parents] at entered
  have records := walked.records
  rw [spent.page, List.append_nil] at records
  refine ⟨leaves.flatten.map Fence.data, walkPartition_entered entered, ?_, ?_⟩
  · intro reference member
    rw [← fences, List.map_map] at member
    obtain ⟨page, inside, rfl⟩ := List.mem_map.mp member
    obtain ⟨bytes, read, _⟩ := (walked.found page inside).decoded
    exact ⟨bytes, read⟩
  · rw [← records, ← fences, List.length_map, List.length_map]
    exact length_flatMap_le (fun page inside => (walked.found page inside).length)

theorem walkPartitions_listed {reader : RunReader} {given : Fin 16 → List Record} {shards : List (Fin 16)}
    (each : ∀ shard ∈ shards, ∃ pages, Catalogued env replies shard (reader.index shard) (given shard) pages) :
    ∃ refs lists, ((walkPartitions env reader shards).run replies).2 = .ok (refs, lists) ∧
      (∀ list ∈ lists, ∀ page ∈ list, ∃ bytes, replies page = .ok bytes) ∧
      (shards.flatMap given).length ≤ lists.flatten.length * maxPageRecords := by
  induction shards with
  | nil => exact ⟨[], [], rfl, nofun, by simp⟩
  | cons shard shards ih =>
      obtain ⟨pages, ⟨refs, walked⟩, stored, room⟩ := each shard List.mem_cons_self
      obtain ⟨moreRefs, lists, rest, others, enough⟩ :=
        ih (fun other member => each other (List.mem_cons_of_mem _ member))
      refine ⟨refs ++ moreRefs, pages :: lists, ?_, ?_, ?_⟩
      · apply Prog.run_bind_eq_ok.mpr
        exact ⟨_, walked, Prog.run_bind_eq_ok.mpr ⟨_, rest, rfl⟩⟩
      · intro list member
        rcases List.mem_cons.mp member with rfl | later
        · exact stored
        · exact others list later
      · rw [List.flatMap_cons, List.flatten_cons, List.length_append, List.length_append, Nat.add_mul]
        omega

/-- An input at its end can be listed, and what it gave fits into its pages. -/
theorem Source.listed {reader : RunReader} {source : RunScanner × Option Record} {out : List Record}
    {given : Fin 16 → List Record} (known : Source env replies reader source out given)
    (none : source.2 = none) :
    ∃ lists, ((reader.dataPages env).run replies).2 = .ok lists ∧
      (∀ list ∈ lists, ∀ page ∈ list, ∃ bytes, replies page = .ok bytes) ∧
      out.length ≤ lists.flatten.length * maxPageRecords := by
  have each : ∀ shard ∈ List.finRange 16, ∃ pages,
      Catalogued env replies shard (reader.index shard) (given shard) pages := by
    intro shard member
    rw [← known.traces.shards] at member
    obtain ⟨cursor, inside, rfl⟩ := List.mem_map.mp member
    obtain ⟨spent, pages, leaves, walked⟩ := known.ended none cursor inside
    exact walked.listed spent
  obtain ⟨refs, lists, walked, stored, room⟩ := walkPartitions_listed each
  refine ⟨lists, Prog.run_bind_eq_ok.mpr ⟨_, walked, rfl⟩, stored, ?_⟩
  rw [known.traces.perm.length_eq]
  exact room

end Pages

section Whole

variable {env : Externals} {backend : Backend} {owner : Call} {base : ArchiveSystem} {sent : List Record}

theorem tracks_pullAll (lossless : env.Lossless) (scanners : List RunScanner) :
    (pullAll env.toPrimitives scanners).Tracks (OpenStep env.toPrimitives base)
      (SoundStep (base.view env.toPrimitives backend owner)) [] := by
  induction scanners with
  | nil => exact Prog.tracks_ret _ _
  | cons scanner scanners ih =>
      apply (tracks_pull lossless (fun some => absurd rfl some)).bind
      intro source middle reaches
      obtain rfl := pull_sent reaches
      exact ih.bind (fun _ _ _ => Prog.tracks_ret _ _)

theorem tracks_mergeLoop (lossless : env.Lossless) {fuel : Nat} {sources : Sources} {lastKey : Option Bytes}
    {summary : SummaryBuilder} {inputs : List (RunReader × List Record)}
    (feeding : Feeding env.toPrimitives (base.view env.toPrimitives backend owner) inputs sources sent) :
    (mergeLoop env.toPrimitives fuel sources lastKey summary).Tracks (OpenStep env.toPrimitives base)
      (SoundStep (base.view env.toPrimitives backend owner)) sent := by
  induction fuel generalizing inputs sources sent lastKey summary with
  | zero => exact Prog.tracks_fail _ _
  | succ fuel ih =>
      apply Prog.tracks_ofExcept_bind
      rintro (_ | ⟨index, record⟩) found
      · exact Prog.tracks_ret _ _
      · dsimp only
        split
        · exact Prog.tracks_ret _ _
        · next scanner head here =>
            have alone := Alone.of_chosen found
            have front := alone.1
            rw [List.getElem?_map, here] at front
            cases front
            obtain ⟨_, _, given, known⟩ := forall₂_getElem? feeding.each here
            have past := known.past rfl
              (fun early member => feeding.above _ (List.mem_of_getElem? here) record rfl early member)
            apply (tracks_pull lossless (fun _ => past)).bind
            intro source middle pulled
            obtain ⟨rfl, _, inputs', _, feeding'⟩ := feeding.step found here pulled
            apply (tracks_sendRecord record).bind
            intro _ middle stepped
            obtain rfl := reaches_sendRecord.mp stepped
            exact ih feeding'

/-- A producer that goes through has read the store as it was before the merge. -/
theorem tracks_produce (lossless : env.Lossless) (readers : List RunReader) (fuel : Nat) (expectedKeys : UInt64) :
    (produce env.toPrimitives readers fuel expectedKeys).Tracks (OpenStep env.toPrimitives base)
      (SoundStep (base.view env.toPrimitives backend owner)) [] := by
  apply Prog.tracks_ofExcept_bind
  intro summary _
  apply (tracks_pullAll lossless _).bind
  intro sources middle reaches
  obtain ⟨rfl, inputs, _, feeding⟩ := feeding_pullAll reaches
  exact tracks_mergeLoop lossless feeding

theorem pageLists_listed {inputs : List (RunReader × List Record)} {sources : Sources}
    (each : List.Forall₂ (fun input source => ∃ given, Source env.toPrimitives
      (base.view env.toPrimitives backend owner) input.1 source input.2 given) inputs sources)
    (ended : ∀ source ∈ sources, source.2 = none) :
    ∃ lists, ((pageLists env.toPrimitives (inputs.map Prod.fst)).run
        (base.replies env.toPrimitives backend owner)).2 = .ok lists ∧
      (∀ list ∈ lists, ∀ page ∈ list, ∃ bytes, base.view env.toPrimitives backend owner page = .ok bytes) ∧
      (inputs.map (fun input => input.2.length)).sum ≤ lists.flatten.length * maxPageRecords := by
  induction each with
  | nil => exact ⟨[], rfl, nofun, Nat.zero_le _⟩
  | @cons input source inputs sources first _ ih =>
      obtain ⟨given, known⟩ := first
      obtain ⟨pages, walked, stored, room⟩ := known.listed (ended source List.mem_cons_self)
      obtain ⟨others, listed, present, enough⟩ := ih (fun other member => ended other (List.mem_cons_of_mem _ member))
      refine ⟨pages ++ others, ?_, ?_, ?_⟩
      · exact Prog.run_bind_eq_ok.mpr ⟨_, (withFetch_run _).trans walked,
          Prog.run_bind_eq_ok.mpr ⟨others, listed, rfl⟩⟩
      · intro list member
        rcases List.mem_append.mp member with mine | other
        · exact stored list mine
        · exact present list other
      · rw [List.map_cons, List.sum_cons, List.flatten_append, List.length_append, Nat.add_mul]
        omega

/-- The pages of the inputs are listed and stored, and the fuel made from them is enough. -/
theorem produce_listed {readers : List RunReader} {fuel : Nat} {expectedKeys : UInt64} {summary : SummaryBuilder}
    (reaches : (produce env.toPrimitives readers fuel expectedKeys).Reaches
      (SoundStep (base.view env.toPrimitives backend owner)) [] summary sent) :
    (∃ lists, ((pageLists env.toPrimitives readers).run (base.replies env.toPrimitives backend owner)).2 = .ok lists ∧
      (∀ list ∈ lists, ∀ page ∈ list, ∃ bytes, base.view env.toPrimitives backend owner page = .ok bytes) ∧
      sent.length < mergeFuel lists) ∧
    ∀ more, sent.length < more → (produce env.toPrimitives readers more expectedKeys).Reaches
      (SoundStep (base.view env.toPrimitives backend owner)) [] summary sent := by
  obtain ⟨start, made, rest⟩ := Prog.reaches_ofExcept_bind.mp reaches
  obtain ⟨sources, middle, pulled, looped⟩ := Prog.reaches_bind.mp rest
  obtain ⟨rfl, inputs, rfl, feeding⟩ := feeding_pullAll pulled
  constructor
  · obtain ⟨final, sources', same, feeding', ended⟩ := feeding.ends looped
    obtain ⟨lists, listed, stored, room⟩ := pageLists_listed feeding'.each ended
    refine ⟨lists, same ▸ listed, stored, ?_⟩
    rw [feeding'.count] at room
    rw [mergeFuel]
    omega
  · intro more enough
    apply Prog.reaches_ofExcept_bind.mpr
    exact ⟨start, made, Prog.reaches_bind.mpr ⟨sources, [], pulled, (mergeLoop_refuel looped).2 more (by simpa)⟩⟩

end Whole

end Fossil
