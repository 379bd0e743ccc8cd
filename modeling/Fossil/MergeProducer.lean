import Fossil.Writing

/-! The producer of a merge.

It reads its inputs through their scanners and sends the records of all of them
in order, each once, with a summary of their distinct keys. -/

namespace Fossil

section Producer

variable {env : Primitives} {served : EncodedObject → Prop} {bad : Error → Prop} {total : List Record}

/-- The producer seen from outside: fetches are answered, sent records pile up. -/
def MergeStep (served : EncodedObject → Prop) (bad : Error → Prop) :
    (op : MergeOp) → List Record → op.Resp → List Record → Prop
  | .fetch reference, sent, reply, after => after = sent ∧ Serves served bad reference reply
  | .send record, sent, reply, after =>
      reply = .ok () ∧ after = sent ++ [record] ∨
        after = sent ∧ ∃ error, reply = .error error ∧ bad error

/-- Records are sent in the order of `total`. -/
def InOrder (total : List Record) : MergeOp → List Record → Prop
  | .fetch _, _ => True
  | .send record, sent => sent ++ [record] <+: total

/-- Programs of the producer, run with these records sent so far. -/
abbrev Producing {α : Type} (served : EncodedObject → Prop) (bad : Error → Prop) (total : List Record)
    (property : α → List Record → Prop) (prog : MergeProg α) (sent : List Record) : Prop :=
  prog.Confined (InOrder total) (MergeStep served bad)
    (fun outcome after => Yields bad (property · after) outcome) sent

theorem producing_bind {α β : Type} {middle : α → List Record → Prop} {final : β → List Record → Prop}
    {prog : MergeProg α} {next : α → MergeProg β} {sent : List Record}
    (first : Producing served bad total middle prog sent)
    (rest : ∀ value after, middle value after → Producing served bad total final (next value) after) :
    Producing served bad total final (prog.bind next) sent := by
  apply Prog.Confined.bind
  apply first.weaken
  intro outcome after yielded
  rcases yielded with ⟨value, rfl, holds⟩ | ⟨error, rfl, isBad⟩
  · exact rest value after holds
  · exact yields_error isBad

theorem mergeFetch_confined {α : Type} {post : Except Error α → Prop} {code : Codec α}
    {sent : List Record} (meets : code.Meets (Serves served bad) post) :
    (mergeFetch code).Confined (InOrder total) (MergeStep served bad)
      (fun outcome after => post outcome ∧ after = sent) sent := by
  have asks : (mergeFetch code).Asks (fun op => ∀ sent, InOrder total op sent) := by
    apply Prog.Asks.lift
    exact fun reference => ⟨fun _ => trivial, fun _ => trivial⟩
  apply asks.confined
  refine meets.lift ?_ (rfl : sent = sent)
  intro reference own same reply after stepped
  exact ⟨reply, rfl, stepped.2, stepped.1.trans same⟩

/-- The next record of an input, with the input left to give the rest. -/
theorem pull_producing (serving : Serving env served bad) {scanner : RunScanner}
    {records sent : List Record} (scans : scanner.Scans env served records) :
    Producing served bad total (fun source after => source.2 = records.head? ∧
      source.1.Scans env served records.tail ∧ after = sent) (pull env scanner) sent := by
  apply Prog.Confined.bind
  apply (mergeFetch_confined (next_meets serving scans)).weaken
  intro outcome after ⟨⟨result, scanner', done, given⟩, same⟩
  subst done same
  rcases given with ⟨rfl, scans'⟩ | ⟨error, rfl, isBad⟩
  · exact yields_ok ⟨rfl, scans', rfl⟩
  · exact yields_error isBad

/-- Inputs with their next records, and the records each has yet to give. -/
def Feeds (env : Primitives) (served : EncodedObject → Prop) (sources : Sources)
    (lists : List (List Record)) : Prop :=
  List.Forall₂ (fun source list => source.2 = list.head? ∧ source.1.Scans env served list.tail)
    sources lists

theorem pullAll_producing (serving : Serving env served bad) {scanners : List RunScanner}
    {lists : List (List Record)} {sent : List Record}
    (scans : List.Forall₂ (fun scanner list => RunScanner.Scans env served scanner list) scanners lists) :
    Producing served bad total (fun sources after => Feeds env served sources lists ∧ after = sent)
      (pullAll env scanners) sent := by
  induction scans with
  | nil => exact yields_ok ⟨.nil, rfl⟩
  | cons first _ ih =>
      apply producing_bind (pull_producing serving first)
      intro source after ⟨head, rest, same⟩
      subst same
      apply producing_bind ih
      intro others after ⟨feeds, same⟩
      subst same
      exact yields_ok ⟨.cons ⟨head, rest⟩ feeds, rfl⟩

/-- What has been chosen among the heads seen so far. -/
def Chosen (seen : List (Option Record)) : Option (Nat × Record) → Prop
  | none => ∀ head ∈ seen, head = none
  | some (index, record) => Least Record.version seen index record

theorem Least.append_none {seen : List (Option Record)} {index : Nat} {record : Record}
    (least : Least Record.version seen index record) :
    Least Record.version (seen ++ [none]) index record := by
  refine ⟨List.getElem?_append_left (List.getElem?_eq_some_iff.mp least.front).1 ▸ least.front, ?_⟩
  intro other member
  rcases List.mem_append.mp member with old | new
  · exact least.least other old
  · cases List.mem_singleton.mp new

/-- With no two equal fronts the choice succeeds and is the least. -/
theorem chooseHead_spec {seen heads : List (Option Record)} {chosen : Option (Nat × Record)}
    (distinct : ∀ (i j : Nat) (left right : Record), (seen ++ heads)[i]? = some (some left) →
      (seen ++ heads)[j]? = some (some right) → left.version = right.version → i = j)
    (soFar : Chosen seen chosen) :
    ∃ final, chooseHead heads seen.length chosen = .ok final ∧ Chosen (seen ++ heads) final := by
  induction heads generalizing seen chosen with
  | nil => exact ⟨chosen, rfl, by simpa using soFar⟩
  | cons head heads ih =>
      have regroup : seen ++ head :: heads = (seen ++ [head]) ++ heads := by simp
      have count : seen.length + 1 = (seen ++ [head]).length := by simp
      rw [regroup] at distinct ⊢
      cases head with
      | none =>
          have next : Chosen (seen ++ [none]) chosen := by
            rcases chosen with _ | ⟨index, record⟩
            · intro head member
              rcases List.mem_append.mp member with old | new
              · exact soFar head old
              · exact List.mem_singleton.mp new
            · exact Least.append_none soFar
          simp only [chooseHead, count]
          exact ih distinct next
      | some record =>
          have here : (seen ++ [some record])[seen.length]? = some (some record) := by simp
          rcases chosen with _ | ⟨best, current⟩
          · simp only [chooseHead, count]
            apply ih distinct
            refine ⟨here, ?_⟩
            intro other member
            rcases List.mem_append.mp member with old | new
            · cases soFar _ old
            · rw [Option.some.inj (List.mem_singleton.mp new)]
          · have bestBound := (List.getElem?_eq_some_iff.mp soFar.front).1
            have kept : (seen ++ [some record])[best]? = some (some current) := by
              rw [List.getElem?_append_left bestBound]
              exact soFar.front
            have different : record.version ≠ current.version := by
              intro same
              have inAll : ∀ {place : Nat} {item : Record},
                  (seen ++ [some record])[place]? = some (some item) →
                  ((seen ++ [some record]) ++ heads)[place]? = some (some item) := by
                intro place item found
                rw [List.getElem?_append_left (List.getElem?_eq_some_iff.mp found).1]
                exact found
              have equal := distinct _ _ _ _ (inAll here) (inAll kept) same
              omega
            simp only [chooseHead, if_neg different, count]
            split
            · next below =>
                apply ih distinct
                refine ⟨here, ?_⟩
                intro other member
                rcases List.mem_append.mp member with old | new
                · exact le_trans (le_of_lt below) (soFar.least other old)
                · rw [Option.some.inj (List.mem_singleton.mp new)]
            · next above =>
                apply ih distinct
                refine ⟨kept, ?_⟩
                intro other member
                rcases List.mem_append.mp member with old | new
                · exact soFar.least other old
                · rw [Option.some.inj (List.mem_singleton.mp new)]
                  exact le_of_not_gt above

theorem Interleaves.chooseHead {whole : List Record} {lists : List (List Record)}
    (merges : Interleaves Record.version whole lists) :
    ∃ final, Fossil.chooseHead (lists.map List.head?) 0 none = .ok final ∧
      Chosen (lists.map List.head?) final :=
  @chooseHead_spec [] (lists.map List.head?) none
    (fun _ _ _ _ => merges.front_injective) (fun _ member => nomatch member)

/-- The keys that differ from the key before them. -/
def newKeys : Option Bytes → List Record → List Bytes
  | _, [] => []
  | last, record :: rest =>
      if last = some record.key then newKeys (some record.key) rest
      else record.key :: newKeys (some record.key) rest

theorem distinctKeys_cons (record : Record) (rest : List Record) :
    distinctKeys (record :: rest) = record.key :: newKeys (some record.key) rest := by
  induction rest generalizing record with
  | nil => rfl
  | cons next rest ih =>
      rw [distinctKeys, newKeys, ih]
      by_cases same : record.key = next.key
      · rw [if_pos same, if_pos (congrArg some same), same]
      · rw [if_neg same, if_neg (fun equal => same (Option.some.inj equal))]

theorem newKeys_none (records : List Record) : newKeys none records = distinctKeys records := by
  cases records with
  | nil => rfl
  | cons record rest =>
      rw [distinctKeys_cons, newKeys, if_neg nofun]

theorem Feeds.heads {sources : Sources} {lists : List (List Record)} (feeds : Feeds env served sources lists) :
    sources.map Prod.snd = lists.map List.head? := by
  rw [← List.forall₂_eq_eq_eq, List.forall₂_map_left_iff, List.forall₂_map_right_iff]
  exact feeds.imp (fun _ _ holds => holds.1)

/-- The inputs after one of them has moved on. -/
theorem Feeds.advance {sources : Sources} {lists : List (List Record)} {index : Nat}
    {list tail : List Record} {next : RunScanner × Option Record} (feeds : Feeds env served sources lists)
    (source : lists[index]? = some list)
    (moved : next.2 = tail.head? ∧ next.1.Scans env served tail.tail) :
    Feeds env served (sources.set index next) (lists.set index tail) := by
  rw [Feeds, List.set_eq_modify]
  exact forall₂_modify_set feeds (fun _ _ holds => holds) source (fun _ _ => moved)

/-- The loop sends everything that is left, in order, and summarises its keys. -/
theorem mergeLoop_producing (serving : Serving env served bad) {fuel : Nat} {sources : Sources}
    {lists : List (List Record)} {whole : List Record} (sent : List Record) (lastKey : Option Bytes)
    (summary : SummaryBuilder) (enough : whole.length < fuel) (feeds : Feeds env served sources lists)
    (merges : Interleaves Record.version whole lists) (known : sent ++ whole = total) :
    Producing served bad total (fun final after =>
      final = summary.addAll env (newKeys lastKey whole) ∧ after = total)
      (mergeLoop env fuel sources lastKey summary) sent := by
  induction fuel generalizing sources lists whole sent lastKey summary with
  | zero => exact absurd enough (Nat.not_lt_zero _)
  | succ fuel ih =>
      rcases merges.chooseHead with ⟨final, found, chosen⟩
      simp only [mergeLoop, feeds.heads, Prog.bind_eq, Prog.liftM_eq, found, Prog.ofExcept_ok, Prog.ret_bind]
      rcases final with _ | ⟨index, record⟩
      · have empty := merges.nil chosen
        subst empty
        rw [List.append_nil] at known
        exact yields_ok ⟨rfl, known⟩
      · rcases merges.take chosen with ⟨tail, rest, source, rfl, remaining⟩
        rcases forall₂_getElem? feeds source with ⟨⟨scanner, head⟩, located, _, scans⟩
        simp only [located]
        apply producing_bind (pull_producing serving scans)
        intro next now ⟨nextHead, nextScans, same⟩
        subst same
        have order : (now ++ [record]) ++ rest = total := by
          rw [← known, List.append_assoc, List.singleton_append]
        refine ⟨⟨rest, order⟩, ?_⟩
        intro reply after stepped
        rcases stepped with ⟨rfl, rfl⟩ | ⟨rfl, error, rfl, isBad⟩
        · have later := ih (now ++ [record]) (some record.key)
            (if lastKey = some record.key then summary else summary.add env record.key)
            (Nat.lt_of_succ_lt_succ enough) (feeds.advance source ⟨nextHead, nextScans⟩) remaining order
          apply later.weaken
          intro outcome last yielded
          rcases yielded with ⟨final, rfl, summarised, same⟩ | failed
          · refine yields_ok ⟨?_, same⟩
            rw [summarised, newKeys]
            split
            · rfl
            · rfl
          · exact .inr failed
        · exact yields_error isBad

/-- The producer sends the merged records and returns the summary of their keys. -/
theorem produce_confined (serving : Serving env served bad) {readers : List RunReader} {fuel : Nat}
    (expectedKeys : UInt64) {lists : List (List Record)} {whole : List Record}
    (enough : whole.length < fuel)
    (scans : List.Forall₂ (fun reader list => (RunReader.scanner reader).Scans env served list)
      readers lists)
    (merges : Interleaves Record.version whole lists) :
    (produce env readers fuel expectedKeys).Confined (InOrder whole) (MergeStep served bad)
      (fun outcome after =>
        (∃ empty, SummaryBuilder.new expectedKeys = .ok empty ∧ after = whole ∧
          outcome = .ok (empty.addAll env (distinctKeys whole))) ∨
        ∃ error, outcome = .error error ∧
          (bad error ∨ SummaryBuilder.new expectedKeys = .error error)) [] := by
  unfold produce
  cases made : SummaryBuilder.new expectedKeys with
  | error error => exact .inr ⟨error, rfl, .inr rfl⟩
  | ok empty =>
      have whole' : Producing served bad whole (fun final after =>
          final = empty.addAll env (distinctKeys whole) ∧ after = whole)
          ((pullAll env (readers.map RunReader.scanner)).bind (fun sources =>
            mergeLoop env fuel sources none empty)) [] := by
        apply producing_bind (pullAll_producing serving (List.forall₂_map_left_iff.mpr scans))
        intro sources after ⟨feeds, same⟩
        subst same
        have looped := mergeLoop_producing serving [] none empty enough feeds merges rfl
        rw [newKeys_none] at looped
        exact looped
      apply whole'.weaken
      intro outcome after yielded
      rcases yielded with ⟨final, rfl, rfl, rfl⟩ | ⟨error, rfl, isBad⟩
      · exact .inl ⟨empty, rfl, rfl, rfl⟩
      · exact .inr ⟨error, rfl, .inl isBad⟩

/-! Two inputs with one version. -/

/-- The choice among fronts, if there is one, is below every other front. -/
def Alone (seen : List (Option Record)) : Option (Nat × Record) → Prop
  | none => ∀ head ∈ seen, head = none
  | some (index, record) => seen[index]? = some (some record) ∧
      ∀ other item, seen[other]? = some (some item) → other ≠ index → record.version < item.version

theorem getElem?_snoc {α : Type} {items : List α} {last item : α} {place : Nat} :
    (items ++ [last])[place]? = some item ↔
      items[place]? = some item ∨ place = items.length ∧ last = item := by
  rw [List.getElem?_append]
  split
  · next inside =>
      constructor
      · exact .inl
      · rintro (found | ⟨rfl, _⟩)
        · exact found
        · exact absurd inside (Nat.lt_irrefl _)
  · next outside =>
      rw [List.getElem?_singleton]
      constructor
      · intro found
        split at found
        · exact .inr ⟨by omega, Option.some.inj found⟩
        · cases found
      · rintro (found | ⟨rfl, rfl⟩)
        · exact absurd (List.getElem?_eq_some_iff.mp found).1 outside
        · simp

theorem Alone.snoc {seen : List (Option Record)} {index : Nat} {record : Record} {head : Option Record}
    (alone : Alone seen (some (index, record)))
    (above : ∀ item, head = some item → record.version < item.version) :
    Alone (seen ++ [head]) (some (index, record)) := by
  refine ⟨getElem?_snoc.mpr (.inl alone.1), ?_⟩
  intro other item here different
  rcases getElem?_snoc.mp here with old | ⟨_, same⟩
  · exact alone.2 other item old different
  · exact above item same

/-- A choice that succeeds has no equal. -/
theorem chooseHead_alone {seen heads : List (Option Record)} {chosen final : Option (Nat × Record)}
    (soFar : Alone seen chosen) (found : chooseHead heads seen.length chosen = .ok final) :
    Alone (seen ++ heads) final := by
  induction heads generalizing seen chosen with
  | nil =>
      cases found
      rw [List.append_nil]
      exact soFar
  | cons head heads ih =>
      have regroup : seen ++ head :: heads = (seen ++ [head]) ++ heads := by simp
      have count : seen.length + 1 = (seen ++ [head]).length := by simp
      rw [regroup]
      cases head with
      | none =>
          rw [chooseHead, count] at found
          apply ih _ found
          rcases chosen with _ | ⟨index, record⟩
          · intro head member
            rcases List.mem_append.mp member with old | new
            · exact soFar head old
            · exact List.mem_singleton.mp new
          · exact Alone.snoc soFar nofun
      | some record =>
          have front : (seen ++ [some record])[seen.length]? = some (some record) :=
            getElem?_snoc.mpr (.inr ⟨rfl, rfl⟩)
          rcases chosen with _ | ⟨best, current⟩
          · rw [chooseHead, count] at found
            refine ih ?_ found
            refine ⟨front, ?_⟩
            intro other item here different
            rcases getElem?_snoc.mp here with old | ⟨same, _⟩
            · cases soFar _ (List.mem_of_getElem? old)
            · exact absurd same different
          · rw [chooseHead, count] at found
            split at found
            · cases found
            · next unequal =>
                split at found
                · next below =>
                    refine ih ?_ found
                    refine ⟨front, ?_⟩
                    intro other item here different
                    rcases getElem?_snoc.mp here with old | ⟨same, _⟩
                    · by_cases this : other = best
                      · subst this
                        rw [soFar.1] at old
                        cases old
                        exact below
                      · exact lt_trans below (soFar.2 other item old this)
                    · exact absurd same different
                · next above =>
                    apply ih (Alone.snoc soFar ?_) found
                    rintro item ⟨⟩
                    exact lt_of_le_of_ne (le_of_not_gt above) (Ne.symm unequal)

theorem Alone.of_chosen {heads : List (Option Record)} {final : Option (Nat × Record)}
    (found : chooseHead heads 0 none = .ok final) : Alone heads final :=
  @chooseHead_alone [] heads none final (fun _ member => absurd member List.not_mem_nil) found

/-- Two of the lists hold records of one version. -/
def Clash (lists : List (List Record)) : Prop :=
  ∃ (i j : Nat) (first second : List Record) (left right : Record), i ≠ j ∧ lists[i]? = some first ∧
    lists[j]? = some second ∧ left ∈ first ∧ right ∈ second ∧ left.version = right.version

/-- Taking the one least front takes neither of two records with one version. -/
theorem Alone.survives {lists : List (List Record)} {index i j : Nat} {record left right : Record}
    {tail first second : List Record} (each : ∀ list ∈ lists, StrictlySorted Record.version list)
    (alone : Alone (lists.map List.head?) (some (index, record)))
    (source : lists[index]? = some (record :: tail)) (different : i ≠ j) (atFirst : lists[i]? = some first)
    (atSecond : lists[j]? = some second) (inFirst : left ∈ first) (inSecond : right ∈ second)
    (same : left.version = right.version) :
    ∃ rest, (lists.set index tail)[i]? = some rest ∧ left ∈ rest := by
  by_cases this : index = i
  · subst this
    rw [source] at atFirst
    cases atFirst
    refine ⟨tail, List.getElem?_set_self (List.getElem?_eq_some_iff.mp source).1, ?_⟩
    rcases List.mem_cons.mp inFirst with rfl | later
    · rcases List.exists_cons_of_ne_nil (List.ne_nil_of_mem inSecond) with ⟨head, others, rfl⟩
      have front : (lists.map List.head?)[j]? = some (some head) := by
        rw [List.getElem?_map, atSecond]
        rfl
      have above := alone.2 j head front (Ne.symm different)
      have least := head_le (each _ (List.mem_of_getElem? atSecond)) rfl inSecond
      exact absurd (lt_of_lt_of_le above least) (not_lt_of_ge (le_of_eq same.symm))
    · exact later
  · exact ⟨first, by rw [List.getElem?_set_ne this, atFirst], inFirst⟩

theorem Clash.take {lists : List (List Record)} {index : Nat} {record : Record} {tail : List Record}
    (each : ∀ list ∈ lists, StrictlySorted Record.version list)
    (alone : Alone (lists.map List.head?) (some (index, record)))
    (source : lists[index]? = some (record :: tail)) (clash : Clash lists) : Clash (lists.set index tail) := by
  rcases clash with ⟨i, j, first, second, left, right, different, atFirst, atSecond, inFirst, inSecond, same⟩
  rcases alone.survives each source different atFirst atSecond inFirst inSecond same with
    ⟨first', atFirst', inFirst'⟩
  rcases alone.survives each source different.symm atSecond atFirst inSecond inFirst same.symm with
    ⟨second', atSecond', inSecond'⟩
  exact ⟨i, j, first', second', left, right, different, atFirst', atSecond', inFirst', inSecond', same⟩

end Producer

end Fossil
