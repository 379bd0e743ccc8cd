import Fossil.Exported

/-! What the exporter writes is a delta that the archive accepts.

Over a whole export the journal after a block agrees with the latest account record of
an address, except for an address that never had a lifetime. -/

namespace Fossil

/-! The chain of blocks. -/

section

variable {number : Nat} {parent final : Text} {db later : Journal} {seen : List Text}
  {blocks : List ReplayBlock} {groups : List BlockGroup}

theorem exported_head {group : BlockGroup}
    (exported : Exported number parent db seen blocks (group :: groups) later final) :
    group.block.number.toNat = number ∧ parseFixed 32 parent = .ok group.block.parentHash := by
  cases exported with
  | cons one _ => exact ⟨one.number, one.parent ▸ one.parentHash⟩

theorem exported_length (exported : Exported number parent db seen blocks groups later final) :
    groups.length = blocks.length := by
  induction exported with
  | nil => rfl
  | cons _ _ ih => rw [List.length_cons, List.length_cons, ih]

theorem exported_chain (exported : Exported number parent db seen blocks groups later final) :
    (groups.map BlockGroup.block).IsChain BlockMeta.Child := by
  induction exported with
  | nil => exact .nil
  | @cons number parent final db mid later seen after block blocks group groups one rest ih =>
      cases groups with
      | nil => exact .singleton _
      | cons next groups =>
          obtain ⟨isNumber, isParent⟩ := exported_head rest
          refine .cons_cons ⟨?_, ?_⟩ ih
          · rw [isNumber, one.number]
          · exact Except.ok.inj (isParent.symm.trans one.hash)

theorem exported_last {last : BlockMeta} (exported : Exported number parent db seen blocks groups later final)
    (isLast : (groups.map BlockGroup.block).getLast? = some last) :
    last.number.toNat + 1 = number + blocks.length ∧ parseFixed 32 final = .ok last.hash := by
  induction exported with
  | nil => cases isLast
  | @cons number parent final db mid later seen after block blocks group groups one rest ih =>
      cases groups with
      | nil =>
          cases rest
          obtain rfl : group.block = last := by simpa using isLast
          exact ⟨by rw [one.number]; rfl, one.hash⟩
      | cons next groups =>
          rw [List.map_cons, List.map_cons, List.getLast?_cons_cons, ← List.map_cons] at isLast
          obtain ⟨isNumber, isHash⟩ := ih isLast
          exact ⟨by rw [isNumber, List.length_cons]; omega, isHash⟩

theorem data32_injective {left right : Hash32} (same : data32 left = data32 right) : left = right := by
  have one : parseFixed 32 (data32 left) = .ok left := parseFixed_eq_ok.mpr rfl
  have other : parseFixed 32 (data32 right) = .ok right := parseFixed_eq_ok.mpr rfl
  rw [same] at one
  exact Except.ok.inj (one.symm.trans other)

theorem exported_codes (exported : Exported number parent db seen blocks groups later final) :
    ((groups.flatMap BlockGroup.code).map CodeBlob.codeHash).Nodup ∧
      ∀ blob ∈ groups.flatMap BlockGroup.code, data32 blob.codeHash ∉ seen := by
  induction exported with
  | nil => simp
  | cons one _ ih =>
      obtain ⟨distinct, unseen⟩ := ih
      rw [List.flatMap_cons, List.map_append, List.nodup_append]
      refine ⟨⟨one.code.distinct, distinct, ?_⟩, ?_⟩
      · intro hash isFirst other isLater same
        obtain ⟨blob, member, rfl⟩ := List.mem_map.mp isFirst
        obtain ⟨later, member', isSame⟩ := List.mem_map.mp isLater
        exact unseen later member' (isSame.trans same.symm ▸ one.code.known blob member)
      · intro blob member
        obtain inside | inside := List.mem_append.mp member
        · exact one.code.unseen blob inside
        · exact fun old => unseen blob inside (one.code.kept _ old)

/-- The journal over an export, and the account events that carry its numbers. -/
theorem exported_history (exported : Exported number parent db seen blocks groups later final) :
    ∃ history, db.Answers history later ∧
      history.map Lifetime.toLifetimeCall = blocks.flatMap ReplayBlock.calls ∧
      List.Forall₂ (fun entry event => Numbered event.block entry event) history
        (groups.flatMap BlockGroup.accounts) := by
  induction exported with
  | nil => exact ⟨[], answers_nil.mpr rfl, rfl, .nil⟩
  | cons one _ ih =>
      obtain ⟨front, answers, calls, numbered⟩ := one.accounts
      obtain ⟨rest, answers', calls', numbered'⟩ := ih
      refine ⟨front ++ rest, answers_append.mpr ⟨_, answers, answers'⟩, ?_, ?_⟩
      · rw [List.map_append, calls, calls', List.flatMap_cons]
      · rw [List.flatMap_cons]
        refine List.rel_append (numbered.imp ?_) numbered'
        intro entry event holds
        exact holds.block.symm ▸ holds

/-- An export up to one of its groups, and the storage of that group. -/
theorem exported_split {front back : List BlockGroup} {group : BlockGroup}
    (exported : Exported number parent db seen blocks (front ++ group :: back) later final) :
    ∃ before block after mid text, blocks = before ++ block :: after ∧
      Exported number parent db seen (before ++ [block]) (front ++ [group]) mid text ∧
      List.Forall₂ (Filed group.block.number mid) (storageRows (sortedItems block.storage)) group.storage := by
  induction front generalizing number parent db seen blocks with
  | nil =>
      cases exported with
      | @cons _ _ _ _ mid _ _ _ block blocks _ _ one rest =>
          exact ⟨[], block, blocks, mid, block.hash, rfl, .cons one .nil, one.storage⟩
  | cons first front ih =>
      cases exported with
      | @cons _ _ _ _ _ _ _ _ block blocks _ _ one rest =>
          obtain ⟨before, found, after, mid, text, rfl, exported, filed⟩ := ih rest
          exact ⟨block :: before, found, after, mid, text, rfl, .cons one exported, filed⟩

theorem exported_split_blocks {before after : List ReplayBlock} {block : ReplayBlock}
    (exported : Exported number parent db seen (before ++ block :: after) groups later final) :
    ∃ front group back mid text, groups = front ++ group :: back ∧
      Exported number parent db seen (before ++ [block]) (front ++ [group]) mid text ∧
      List.Forall₂ (Filed group.block.number mid) (storageRows (sortedItems block.storage)) group.storage := by
  have length := exported_length exported
  obtain ⟨front, rest, rfl, short⟩ : ∃ front rest, groups = front ++ rest ∧ front.length = before.length :=
    ⟨groups.take before.length, groups.drop before.length, (List.take_append_drop _ _).symm,
      by simp only [List.length_append] at length; simp; omega⟩
  cases rest with
  | nil =>
      simp only [List.append_nil, List.length_append, List.length_cons] at length
      omega
  | cons group back =>
      obtain ⟨before', block', after', mid, text, same, prefix_, filed⟩ := exported_split exported
      have short' := exported_length prefix_
      simp only [List.length_append, List.length_cons, List.length_nil] at short'
      obtain ⟨rfl, tails⟩ := List.append_inj same (by omega)
      obtain ⟨rfl, rfl⟩ := List.cons.inj tails
      exact ⟨front, group, back, mid, text, rfl, prefix_, filed⟩

end

/-! The journal and the account in force. -/

section

variable {db later : Journal} {history : List Lifetime} {address : Text}

theorem answers_frame (answers : db.Answers history later) (others : ∀ entry ∈ history, entry.address ≠ address) :
    later address = db address := by
  induction history generalizing db with
  | nil => rw [answers_nil.mp answers]
  | cons entry history ih =>
      obtain ⟨mid, called, rest⟩ := answers_cons.mp answers
      obtain ⟨other, othersRest⟩ := List.forall_mem_cons.mp others
      rw [ih rest othersRest, lifetime_frame called other.symm]

/-- An address whose calls all find no lifetime keeps no row. -/
theorem answers_absent (answers : db.Answers history later) (absent : db address = none)
    (never : ∀ entry ∈ history, entry.address = address →
      entry.previousExists = false ∧ entry.existing = false) : later address = none := by
  induction history generalizing db with
  | nil => rw [answers_nil.mp answers, absent]
  | cons entry history ih =>
      obtain ⟨mid, called, rest⟩ := answers_cons.mp answers
      obtain ⟨one, neverRest⟩ := List.forall_mem_cons.mp never
      refine ih rest ?_ neverRest
      by_cases same : address = entry.address
      · subst same
        obtain ⟨before, gone⟩ := one rfl
        obtain ⟨base, based, stored⟩ := bind_eq_ok.mp called
        simp only [absent, before, gone, ne_eq, not_true_eq_false, Bool.false_eq_true, or_self, if_false] at stored
        cases stored
        exact absent
      · rw [lifetime_frame called same, absent]

/-- Calls that leave no row all found no lifetime. -/
theorem answers_never (answers : db.Answers history later) (absent : later address = none) :
    db address = none ∧ ∀ entry ∈ history, entry.address = address →
      entry.previousExists = false ∧ entry.existing = false := by
  constructor
  · by_contra present
    exact (answers_rises answers address).present present absent
  · intro entry member owner
    obtain ⟨before, after, rfl⟩ := List.append_of_mem member
    obtain ⟨mid, _, back⟩ := answers_append.mp answers
    obtain ⟨next, called, rest⟩ := answers_cons.mp back
    obtain ⟨_, _, ⟨_, before', gone, _⟩ | ⟨_, rfl⟩⟩ := lifetime_eq_ok called
    · exact ⟨before', gone⟩
    · refine absurd absent ((answers_rises rest address).present ?_)
      rw [← owner, Function.update_self]
      exact Option.some_ne_none _

/-- The journal's row of an address is that of its latest call, unless the address never had
a lifetime. -/
theorem answers_latest {before after : List Lifetime} {entry : Lifetime}
    (answers : db.Answers (before ++ entry :: after) later) (owner : entry.address = address)
    (last : ∀ other ∈ after, other.address ≠ address) :
    later address = some ⟨entry.incarnation, entry.existing⟩ ∨
      later address = none ∧ db address = none ∧ entry.incarnation = 0 ∧ entry.existing = false ∧
        entry.previousExists = false := by
  obtain ⟨mid, front, back⟩ := answers_append.mp answers
  obtain ⟨next, called, rest⟩ := answers_cons.mp back
  have kept : later address = next address := answers_frame rest last
  subst owner
  rw [kept]
  obtain ⟨_, value, ⟨absent, before', gone, rfl⟩ | ⟨_, rfl⟩⟩ := lifetime_eq_ok called
  · have early : db entry.address = none := by
      by_contra present
      exact (answers_rises front entry.address).present present absent
    exact .inr ⟨absent, early, by simp [value, gone, Journal.floor, absent], gone, before'⟩
  · exact .inl (Function.update_self _ _ _)

/-- In accounts whose blocks rise for each address, the last record of an address up to a
block is the one in force. -/
theorem accountInForce_last {accounts front middle back : List AccountEvent} {event : AccountEvent}
    {block : UInt64} (whole : accounts = front ++ event :: middle ++ back)
    (rising : accounts.Pairwise (fun left right => left.address = right.address → left.block < right.block))
    (low : event.block ≤ block) (others : ∀ other ∈ middle, other.address ≠ event.address)
    (late : ∀ other ∈ back, block < other.block) :
    accountInForce accounts event.address block = some event := by
  have member : event ∈ accounts := by simp [whole]
  have latest := accountInForce_latest accounts event.address block
  cases found : accountInForce accounts event.address block with
  | none =>
      rw [found] at latest
      exact absurd low (not_le_of_gt (latest event (by simp [member])))
  | some other =>
      rw [found] at latest
      obtain ⟨inside, otherLow, highest⟩ := latest
      obtain ⟨inside, isOwner⟩ := List.mem_filter.mp inside
      have owner : other.address = event.address := of_decide_eq_true isOwner
      have above := highest event (by simp [member]) low
      rw [whole] at inside rising
      simp only [List.mem_append, List.mem_cons] at inside
      obtain (early | rfl | between) | after := inside
      · rw [List.append_assoc] at rising
        have less := (List.pairwise_append.mp rising).2.2 other early event (by simp) owner
        exact absurd above (not_le_of_gt less)
      · rfl
      · exact absurd owner (others other between)
      · exact absurd otherLow (not_le_of_gt (late other after))

theorem accountInForce_none {accounts front back : List AccountEvent} {owner : Address} {block : UInt64}
    (whole : accounts = front ++ back) (others : ∀ event ∈ front, event.address ≠ owner)
    (late : ∀ event ∈ back, block < event.block) : accountInForce accounts owner block = none := by
  have latest := accountInForce_latest accounts owner block
  cases found : accountInForce accounts owner block with
  | none => rfl
  | some event =>
      rw [found] at latest
      obtain ⟨inside, low, _⟩ := latest
      obtain ⟨inside, isOwner⟩ := List.mem_filter.mp inside
      rw [whole] at inside
      obtain early | after := List.mem_append.mp inside
      · exact absurd (of_decide_eq_true isOwner) (others event early)
      · exact absurd low (not_le_of_gt (late event after))

end

section

variable {env : Externals} {records : List LineRecord} {header : PackageHeader} {groups : List BlockGroup}
  {first last : BlockMeta}

/-- The records of an address rise with their blocks. -/
theorem Spelled.accounts_rising (spelled : Spelled env records header groups first last) :
    (groups.flatMap BlockGroup.accounts).Pairwise
      (fun left right => left.address = right.address → left.block < right.block) := by
  rw [List.pairwise_flatMap]
  constructor
  · intro group member
    obtain ⟨_, spells⟩ := spelled.group member
    refine (List.pairwise_map.mp spells.accounts).imp ?_
    intro left right less same
    exact absurd same less.ne
  · refine (List.pairwise_map.mp spelled.increasing).imp_of_mem ?_
    intro left right inLeft inRight less one isOne two isTwo _
    have early := (spelled.event_sound inLeft (mem_accounts.mp isOne)).1
    have late := (spelled.event_sound inRight (mem_accounts.mp isTwo)).1
    exact lt_of_eq_of_lt early (lt_of_lt_of_eq less late.symm)

theorem Spelled.accounts_late {front back : List BlockGroup} {group : BlockGroup}
    (spelled : Spelled env records header (front ++ group :: back) first last) :
    ∀ event ∈ back.flatMap BlockGroup.accounts, group.block.number < event.block := by
  intro event member
  obtain ⟨later, inside, isEvent⟩ := List.mem_flatMap.mp member
  have increasing := List.pairwise_map.mp spelled.increasing
  have less := List.rel_of_pairwise_cons (List.pairwise_append.mp increasing).2.1 inside
  have block := (spelled.event_sound (by simp [inside]) (mem_accounts.mp isEvent)).1
  exact lt_of_lt_of_eq less block.symm

theorem Spelled.accounts_early {front back : List BlockGroup} {group : BlockGroup}
    (spelled : Spelled env records header (front ++ group :: back) first last) :
    ∀ event ∈ (front ++ [group]).flatMap BlockGroup.accounts, event.block ≤ group.block.number := by
  intro event member
  obtain ⟨other, inside, isEvent⟩ := List.mem_flatMap.mp member
  have increasing := List.pairwise_map.mp spelled.increasing
  have block := (spelled.event_sound (List.mem_append.mpr ((List.mem_append.mp inside).imp id (by simp_all)))
    (mem_accounts.mp isEvent)).1
  have block' : event.block = other.block.number := block
  rw [block']
  obtain early | same := List.mem_append.mp inside
  · exact ((List.pairwise_append.mp increasing).2.2 other early group (by simp)).le
  · rw [List.mem_singleton.mp same]

end

/-! Storage of an address that never had a lifetime. -/

/-- The blocks have entries of an address, the journal has no row of it, and no entry is one
of an account that exists or existed. -/
def Unborn (db : Journal) (blocks : List ReplayBlock) (address : Text) : Prop :=
  db address = none ∧ (∃ block ∈ blocks, ∃ row ∈ block.accounts, row.1 = address) ∧
    ∀ block ∈ blocks, ∀ row ∈ block.accounts, row.1 = address →
      row.2.previousExists = false ∧ row.2.existing = false

/-- A block has a slot that is not zero for an address with entries up to that block that is
still unborn. -/
def StoresUnborn (db : Journal) (blocks : List ReplayBlock) : Prop :=
  ∃ before block after, blocks = before ++ block :: after ∧ ∃ row ∈ block.storage,
    Unborn db (before ++ [block]) row.1 ∧ ∃ slot ∈ row.2, slot.2 ≠ data32 Fixed.zero

section

variable {db mid : Journal} {history : List Lifetime} {blocks : List ReplayBlock}

theorem mem_history_iff (calls : history.map Lifetime.toLifetimeCall = blocks.flatMap ReplayBlock.calls)
    (call : LifetimeCall) :
    (∃ entry ∈ history, entry.toLifetimeCall = call) ↔
      ∃ block ∈ blocks, ∃ row ∈ block.accounts, AccountEntry.call row = call := by
  rw [← List.mem_map, calls, List.mem_flatMap]
  simp only [ReplayBlock.calls, List.mem_map, mem_sortedItems]

theorem unborn_iff (calls : history.map Lifetime.toLifetimeCall = blocks.flatMap ReplayBlock.calls)
    {address : Text} :
    Unborn db blocks address ↔ db address = none ∧ (∃ entry ∈ history, entry.address = address) ∧
      ∀ entry ∈ history, entry.address = address → entry.previousExists = false ∧ entry.existing = false := by
  have members := mem_history_iff calls
  refine and_congr_right (fun _ => and_congr ?_ ?_)
  · constructor
    · rintro ⟨block, inside, row, member, rfl⟩
      obtain ⟨entry, present, same⟩ := (members _).mpr ⟨block, inside, row, member, rfl⟩
      exact ⟨entry, present, congrArg LifetimeCall.address same⟩
    · rintro ⟨entry, present, rfl⟩
      obtain ⟨block, inside, row, member, same⟩ := (members _).mp ⟨entry, present, rfl⟩
      exact ⟨block, inside, row, member, congrArg LifetimeCall.address same⟩
  · constructor
    · intro never entry present owner
      obtain ⟨block, inside, row, member, same⟩ := (members _).mp ⟨entry, present, rfl⟩
      obtain ⟨before, gone⟩ := never block inside row member
        ((congrArg LifetimeCall.address same).trans owner)
      exact ⟨(congrArg LifetimeCall.previousExists same).symm.trans before,
        (congrArg LifetimeCall.existing same).symm.trans gone⟩
    · intro never block inside row member owner
      obtain ⟨entry, present, same⟩ := (members _).mpr ⟨block, inside, row, member, rfl⟩
      obtain ⟨before, gone⟩ := never entry present ((congrArg LifetimeCall.address same).trans owner)
      exact ⟨(congrArg LifetimeCall.previousExists same).symm.trans before,
        (congrArg LifetimeCall.existing same).symm.trans gone⟩

/-- The last entry of an address that has one. -/
theorem exists_last {α : Type} {test : α → Prop} {items : List α} (some : ∃ item ∈ items, test item) :
    ∃ before item after, items = before ++ item :: after ∧ test item ∧ ∀ other ∈ after, ¬ test other := by
  induction items using List.reverseRecOn with
  | nil =>
      obtain ⟨_, member, _⟩ := some
      cases member
  | append_singleton items last ih =>
      by_cases holds : test last
      · exact ⟨items, last, [], rfl, holds, by simp⟩
      · obtain ⟨item, member, passes⟩ := some
        obtain inside | same := List.mem_append.mp member
        · obtain ⟨before, found, after, rfl, isFound, rest⟩ := ih ⟨item, inside, passes⟩
          refine ⟨before, found, after ++ [last], by simp, isFound, ?_⟩
          intro other inAfter
          obtain early | final := List.mem_append.mp inAfter
          · exact rest other early
          · rw [List.mem_singleton.mp final]
            exact holds
        · rw [List.mem_singleton.mp same] at passes
          exact absurd passes holds

theorem forall₂_split {α β : Type} {related : α → β → Prop} {before after : List α} {item : α} {items : List β}
    (all : List.Forall₂ related (before ++ item :: after) items) :
    ∃ front other back, items = front ++ other :: back ∧ List.Forall₂ related before front ∧
      related item other ∧ List.Forall₂ related after back := by
  induction before generalizing items with
  | nil =>
      cases all with
      | cons one rest => exact ⟨[], _, _, rfl, .nil, one, rest⟩
  | cons head before ih =>
      cases all with
      | cons one rest =>
          obtain ⟨front, other, back, rfl, first, isOther, last⟩ := ih rest
          exact ⟨_ :: front, other, back, rfl, .cons one first, isOther, last⟩

theorem parseFixed_injective {n : Nat} {left right : Text} {value : Fixed n}
    (first : parseFixed n left = .ok value) (second : parseFixed n right = .ok value) : left = right :=
  (parseFixed_eq_ok.mp first).trans (parseFixed_eq_ok.mp second).symm

/-- A storage event of an export against the account in force: their incarnations agree, and
the check passes unless the address is unborn and the value is not zero. -/
theorem filed_matches {accounts front back : List AccountEvent} {row : Text × Text × Text}
    {event : StorageEvent} (answers : db.Answers history mid)
    (calls : history.map Lifetime.toLifetimeCall = blocks.flatMap ReplayBlock.calls)
    (numbered : List.Forall₂ (fun entry event => Numbered event.block entry event) history front)
    (whole : accounts = front ++ back)
    (rising : accounts.Pairwise (fun left right => left.address = right.address → left.block < right.block))
    (early : ∀ account ∈ front, account.block ≤ event.block)
    (late : ∀ account ∈ back, event.block < account.block) (filed : Filed event.block mid row event) :
    (∀ account, accountInForce accounts event.address event.block = some account →
      event.incarnation = account.incarnation) ∧
    (storageMatches .delta accounts event = true ↔
      ¬ (Unborn db blocks row.1 ∧ event.value ≠ Fixed.zero)) := by
  obtain ⟨incarnation, found, bound, isIncarnation⟩ := filed.incarnation
  rw [unborn_iff calls]
  by_cases known : ∃ entry ∈ history, entry.address = row.1
  · obtain ⟨before, entry, after, rfl, owner, last⟩ := exists_last known
    obtain ⟨front', account, middle, rfl, _, isAccount, others⟩ := forall₂_split numbered
    have address : account.address = event.address := by
      have parsed := owner ▸ isAccount.address
      exact Except.ok.inj (parsed.symm.trans filed.address)
    have inForce : accountInForce accounts event.address event.block = some account := by
      rw [← address]
      refine accountInForce_last whole rising (early account (by simp)) ?_ late
      intro other member same
      obtain ⟨entry', inside, isOther⟩ := forall₂_exists_left others member
      refine last entry' inside ?_
      exact parseFixed_injective (same.trans address ▸ isOther.address) filed.address
    obtain live | ⟨absent, early', zero, gone, _⟩ := answers_latest answers owner last
    · -- The journal has the row of the latest entry, which exists.
      rw [storageIncarnation, live] at found
      dsimp only at found
      split at found
      · rename_i existing
        cases found
        have same : event.incarnation = account.incarnation := by
          rw [isIncarnation, isAccount.incarnation]
        refine ⟨?_, ?_⟩
        · intro other isOther
          obtain rfl := Option.some.inj (inForce.symm.trans isOther)
          exact same
        · have matched : storageMatches .delta accounts event = true := by
            simp [storageMatches, inForce, isAccount.existing, existing, same]
          refine iff_of_true matched ?_
          rintro ⟨⟨_, _, never⟩, _⟩
          have dead := (never entry (by simp) owner).2
          rw [existing] at dead
          cases dead
      · cases found
    · -- No lifetime so far: the latest record is a tombstone of incarnation zero.
      rw [storageIncarnation, absent] at found
      cases found
      obtain ⟨_, never⟩ := answers_never answers absent
      have same : event.incarnation = account.incarnation := by
        rw [isIncarnation, isAccount.incarnation, zero]
      refine ⟨?_, ?_⟩
      · intro other isOther
        obtain rfl := Option.some.inj (inForce.symm.trans isOther)
        exact same
      · have matched : storageMatches .delta accounts event = true ↔ event.value = Fixed.zero := by
          simp [storageMatches, inForce, isAccount.existing, gone]
        rw [matched]
        constructor
        · intro isZero ⟨_, nonzero⟩
          exact nonzero isZero
        · intro covered
          by_contra nonzero
          exact covered ⟨⟨early', known, never⟩, nonzero⟩
  · have inForce : accountInForce accounts event.address event.block = none := by
      refine accountInForce_none whole ?_ late
      intro account member same
      obtain ⟨entry, inside, isAccount⟩ := forall₂_exists_left numbered member
      exact known ⟨entry, inside, parseFixed_injective (same ▸ isAccount.address) filed.address⟩
    refine ⟨?_, ?_⟩
    · intro account isAccount
      rw [inForce] at isAccount
      cases isAccount
    · refine iff_of_true (by simp [storageMatches, inForce]) ?_
      rintro ⟨⟨_, some, _⟩, _⟩
      exact known some

end

/-! The package. -/

section

variable {env : Externals} {records : List LineRecord} {header : PackageHeader} {groups : List BlockGroup}
  {first last : BlockMeta} {number : Nat} {parent final : Text} {db later : Journal} {seen : List Text}
  {blocks : List ReplayBlock}

theorem mem_storageRows {items : List (Text × List (Text × Text))} {row : Text × Text × Text} :
    row ∈ storageRows (sortedItems items) ↔ ∃ slots, (row.1, slots) ∈ items ∧ (row.2.1, row.2.2) ∈ slots := by
  simp only [storageRows, List.mem_flatMap, List.mem_map, mem_sortedItems]
  constructor
  · rintro ⟨⟨address, slots⟩, inside, ⟨slot, value⟩, member, rfl⟩
    exact ⟨slots, inside, member⟩
  · rintro ⟨slots, inside, member⟩
    exact ⟨(row.1, slots), inside, (row.2.1, row.2.2), member, rfl⟩

/-- A storage event of one group against the accounts of the whole package. -/
theorem exported_matches {front back : List BlockGroup} {group : BlockGroup}
    {before : List ReplayBlock} {block : ReplayBlock} {mid : Journal} {text : Text}
    {row : Text × Text × Text} {event : StorageEvent}
    (spelled : Spelled env records header (front ++ group :: back) first last)
    (exported : Exported number parent db seen (before ++ [block]) (front ++ [group]) mid text)
    (filed : Filed group.block.number mid row event) :
    (∀ account, accountInForce ((front ++ group :: back).flatMap BlockGroup.accounts) event.address
        event.block = some account → event.incarnation = account.incarnation) ∧
    (storageMatches .delta ((front ++ group :: back).flatMap BlockGroup.accounts) event = true ↔
      ¬ (Unborn db (before ++ [block]) row.1 ∧ event.value ≠ Fixed.zero)) := by
  obtain ⟨history, answers, calls, numbered⟩ := exported_history exported
  have whole : (front ++ group :: back).flatMap BlockGroup.accounts =
      (front ++ [group]).flatMap BlockGroup.accounts ++ back.flatMap BlockGroup.accounts := by simp
  refine filed_matches answers calls numbered whole spelled.accounts_rising ?_ ?_ (filed.block.symm ▸ filed)
  · rw [filed.block]
    exact spelled.accounts_early
  · rw [filed.block]
    exact spelled.accounts_late

theorem exported_incarnations (spelled : Spelled env records header groups first last)
    (exported : Exported number parent db seen blocks groups later final) {event : StorageEvent}
    (member : event ∈ groups.flatMap BlockGroup.storage) {account : AccountEvent}
    (inForce : accountInForce (groups.flatMap BlockGroup.accounts) event.address event.block = some account) :
    event.incarnation = account.incarnation := by
  obtain ⟨group, inside, isEvent⟩ := List.mem_flatMap.mp member
  obtain ⟨front, back, rfl⟩ := List.append_of_mem inside
  obtain ⟨before, block, after, mid, text, rfl, upTo, filed⟩ := exported_split exported
  obtain ⟨row, _, isFiled⟩ := forall₂_exists_left filed isEvent
  exact (exported_matches spelled upTo isFiled).1 account inForce

/-- The check of storage against accounts, over the whole export. -/
theorem exported_lifecycle (spelled : Spelled env records header groups first last)
    (exported : Exported number parent db seen blocks groups later final) (mode : header.mode = .delta)
    (inputSha256 : Hash32) :
    validateLifecycle env (packageOf header inputSha256 first last groups) = .ok () ↔
      ¬ StoresUnborn db blocks := by
  have check : validateLifecycle env (packageOf header inputSha256 first last groups) = .ok () ↔
      ∀ event ∈ groups.flatMap BlockGroup.storage,
        storageMatches .delta (groups.flatMap BlockGroup.accounts) event = true := by
    simp only [validateLifecycle, packageOf, mode, guard_eq_ok, not_not, List.all_eq_true, reduceCtorEq,
      false_and, not_false_eq_true, and_true]
  rw [check]
  constructor
  · rintro matched ⟨before, block, after, rfl, row, stored, unborn, slot, present, nonzero⟩
    obtain ⟨front, group, back, mid, text, rfl, upTo, filed⟩ := exported_split_blocks exported
    have inside : (row.1, slot.1, slot.2) ∈ storageRows (sortedItems block.storage) :=
      mem_storageRows.mpr ⟨row.2, stored, present⟩
    obtain ⟨event, isEvent, isFiled⟩ := forall₂_exists_left filed.flip inside
    refine (exported_matches spelled upTo isFiled).2.mp (matched event ?_) ⟨unborn, ?_⟩
    · exact List.mem_flatMap.mpr ⟨group, by simp, isEvent⟩
    · intro zero
      exact nonzero (parseFixed_eq_ok.mp (zero ▸ isFiled.value))
  · intro none event member
    obtain ⟨group, inside, isEvent⟩ := List.mem_flatMap.mp member
    obtain ⟨front, back, rfl⟩ := List.append_of_mem inside
    obtain ⟨before, block, after, mid, text, rfl, upTo, filed⟩ := exported_split exported
    obtain ⟨row, isRow, isFiled⟩ := forall₂_exists_left filed isEvent
    obtain ⟨slots, stored, present⟩ := mem_storageRows.mp isRow
    refine (exported_matches spelled upTo isFiled).2.mpr ?_
    rintro ⟨unborn, nonzero⟩
    refine none ⟨before, block, after, rfl, (row.1, slots), stored, unborn, (row.2.1, row.2.2), present, ?_⟩
    intro zero
    have parsed : parseFixed 32 row.2.2 = .ok Fixed.zero := parseFixed_eq_ok.mpr zero
    exact nonzero (Except.ok.inj (isFiled.value.symm.trans parsed))

/-- The package is the delta of the blocks: it has exactly these blocks, each account record
carries the incarnation that the journal assigned, each storage record that of the account
record in force, and the archive's checks pass. -/
structure DeltaOf (env : Externals) (number : Nat) (parent : Text) (db : Journal)
    (blocks : List ReplayBlock) (package : Package) : Prop where
  mode : package.mode = .delta
  preceding : ∃ preceding, package.precedingNumber = some preceding ∧ preceding.toNat + 1 = number
  precedingHash : ∃ hash, package.precedingHash = some hash ∧ parseFixed 32 parent = .ok hash
  content : ∃ groups later final, Exported number parent db [] blocks groups later final ∧
    package.segment.blocks = groups.map BlockGroup.block ∧
    package.segment.accounts = groups.flatMap BlockGroup.accounts ∧
    package.segment.storage = groups.flatMap BlockGroup.storage ∧
    package.segment.code = groups.flatMap BlockGroup.code
  incarnations : ∀ event ∈ package.segment.storage, ∀ account,
    accountInForce package.segment.accounts event.address event.block = some account →
      event.incarnation = account.incarnation
  lifecycle : validateLifecycle env package = .ok ()

theorem shaped_records {out : List ExportRecord} (shaped : ∀ line ∈ out, line.Shaped) :
    ∃ records, List.Forall₂ (fun line record => ExportRecord.record line = .ok record) out records := by
  induction out with
  | nil => exact ⟨[], .nil⟩
  | cons line out ih =>
      obtain ⟨one, rest⟩ := List.forall_mem_cons.mp shaped
      obtain ⟨record, read⟩ := one.record
      obtain ⟨records, reads⟩ := ih rest
      exact ⟨record :: records, .cons read reads⟩

/-- A package that is accepted ends at a block whose number is a `u64`. -/
theorem spelled_trailer {out : List ExportRecord} {last' : Nat} {endHash count : Text}
    (reads : List.Forall₂ (fun line record => ExportRecord.record line = .ok record)
      (out ++ [.trailer (hexNumber last') endHash count]) records)
    (spelled : Spelled env records header groups first last) : last' < 2 ^ 64 := by
  obtain ⟨opening, lines, closing, whole, _, _, ⟨number, _, rfl, isNumber, _⟩⟩ := spelled.lines
  obtain ⟨front, record, back, rfl, _, isRecord, none⟩ := forall₂_split reads
  cases none
  obtain ⟨hash, _, done⟩ := bind_eq_ok.mp isRecord
  cases done
  have tails := congrArg List.getLast? whole
  rw [← List.cons_append, List.getLast?_append, List.getLast?_append] at tails
  obtain ⟨same, _⟩ := by simpa using tails
  exact hexNumber_small (same ▸ isNumber)

/-- The header of an export. -/
def exportHeader (preceding : UInt64) (hash : Hash32) : PackageHeader :=
  ⟨0x2105, exportGenesis, .delta, none, none, some preceding, some hash⟩

/-- The records of an export spell the blocks that were exported. -/
theorem exported_spelled {lines : List GroupLines} {parentHash endHash : Hash32} {last' : Nat}
    (exported : Exported number parent db [] blocks groups later final)
    (spells : List.Forall₂ (GroupLines.Spells env) lines groups) (positive : 1 ≤ number)
    (nonempty : blocks ≠ []) (ends : number + blocks.length = last' + 1) (small : last' < 2 ^ 64)
    (isParent : parseFixed 32 parent = .ok parentHash) (isEnd : parseFixed 32 final = .ok endHash) :
    ∃ first last, Spelled env
      (.header exportSchema baseChainId exportGenesis deltaText none none (some (hexNumber (number - 1)))
        (some parentHash) :: (lines.flatMap GroupLines.records ++
          [.trailer (hexNumber last') endHash (hexNumber blocks.length)]))
      (exportHeader (UInt64.ofNat (number - 1)) parentHash) groups first last := by
  have length := exported_length exported
  have total := List.length_pos_iff.mpr nonempty
  cases groups with
  | nil =>
      rw [List.length_nil] at length
      omega
  | cons group rest =>
      obtain ⟨isNumber, isFirstParent⟩ := exported_head exported
      obtain ⟨last, isLast⟩ : ∃ last, ((group :: rest).map BlockGroup.block).getLast? = some last :=
        ⟨_, List.getLast?_eq_some_getLast (by simp)⟩
      obtain ⟨lastNumber, lastHash⟩ := exported_last exported isLast
      have previous : (UInt64.ofNat (number - 1)).toNat = number - 1 :=
        UInt64.toNat_ofNat_of_lt' (show number - 1 < 2 ^ 64 by omega)
      have isLastNumber : UInt64.ofNat last' = last.number := by
        apply UInt64.toNat_inj.mp
        rw [UInt64.toNat_ofNat_of_lt' small]
        omega
      have hash : parentHash = group.block.parentHash := Except.ok.inj (isParent.symm.trans isFirstParent)
      obtain rfl : endHash = last.hash := Except.ok.inj (isEnd.symm.trans lastHash)
      refine ⟨group.block, last, ⟨_, lines, _, rfl, ?_, spells, ?_⟩, rfl, isLast, ?_,
        exported_chain exported, (exported_codes exported).1⟩
      · refine ⟨_, _, _, rfl, rfl, rfl, ?_⟩
        rw [Option.map_some, parseQuantity_hexNumber (by omega)]
        rfl
      · refine ⟨_, _, rfl, ?_, ?_⟩
        · rw [parseQuantity_hexNumber small, isLastNumber]
        · rw [parseQuantity_hexNumber (by omega), length]
      · refine ⟨fun wrong => (nomatch wrong), fun _ => ⟨⟨_, rfl, ?_⟩, ?_⟩, ?_⟩
        · rw [previous, isNumber]
          omega
        · rw [← hash]
          rfl
        · intro zero
          rw [zero] at isNumber
          have none : number = 0 := isNumber.symm
          omega

theorem records_unique {out : List ExportRecord} {one other : List LineRecord}
    (reads : List.Forall₂ (fun line record => ExportRecord.record line = .ok record) out one)
    (again : List.Forall₂ (fun line record => ExportRecord.record line = .ok record) out other) :
    one = other := by
  induction reads generalizing other with
  | nil =>
      cases again
      rfl
  | cons read _ ih =>
      cases again with
      | cons read' rest => rw [Except.ok.inj (read.symm.trans read'), ih rest]

/-- The reader accepts an export whose numbers fit, as the delta of its blocks up to the check of
storage against accounts. -/
theorem convert_assembles {loads : Text → Result Json} {first last : Nat} {lines : List Text}
    {state : ConvertState} {records : List LineRecord} {inputSha256 : Hash32} (positive : 1 ≤ first)
    (range : first ≤ last) (stored : db.Stored) (matched : hashPattern parent = true)
    (isFinal : hashPattern state.parent = true) (ends : first + blocks.length = last + 1)
    (small : last < 2 ^ 64)
    (looped : convertLoop loads first 0 ⟨db, parent, [], [.header (hexNumber (first - 1)) parent]⟩ lines =
      .ok (blocks.length, state))
    (replayed : replayBlocks loads first parent lines = .ok blocks)
    (bounded : ∀ block ∈ blocks, block.Bounded env)
    (recorded : List.Forall₂ (fun line record => ExportRecord.record line = .ok record)
      (state.out ++ [.trailer (hexNumber last) state.parent (hexNumber blocks.length)]) records) :
    ∃ package, assemblePackage env records inputSha256 = .ok package ∧
      (validateLifecycle env package = .ok () → DeltaOf env first parent db blocks package) ∧
      (validateLifecycle env package = .ok () ↔ ¬ StoresUnborn db blocks) := by
  obtain ⟨added, groups, extended, exported, groupLines, reads, spells⟩ :=
    convertLoop_exported stored replayed bounded (by omega) looped
  rw [Nat.add_zero] at exported
  obtain ⟨parentHash, isParent⟩ := hashPattern_parsed matched
  obtain ⟨endHash, isEnd⟩ := hashPattern_parsed isFinal
  have nonempty : blocks ≠ [] := by
    rintro rfl
    rw [List.length_nil] at ends
    omega
  obtain ⟨one, two, spelled⟩ :=
    exported_spelled exported spells positive nonempty ends small isParent isEnd
  have written : List.Forall₂ (fun line record => ExportRecord.record line = .ok record)
      (state.out ++ [.trailer (hexNumber last) state.parent (hexNumber blocks.length)])
      (.header exportSchema baseChainId exportGenesis deltaText none none (some (hexNumber (first - 1)))
        (some parentHash) :: (groupLines.flatMap GroupLines.records ++
          [.trailer (hexNumber last) endHash (hexNumber blocks.length)])) := by
    rw [extended]
    refine .cons ?_ (List.rel_append reads (.cons ?_ .nil))
    · simp only [ExportRecord.record, isParent, ok_bind]
    · simp only [ExportRecord.record, isEnd, ok_bind]
  rw [records_unique recorded written]
  refine ⟨_, assemblePackage_eq_ok_iff.mpr ⟨_, groups, one, two, spelled, rfl⟩, ?_,
    exported_lifecycle spelled exported rfl inputSha256⟩
  intro lifecycle
  refine ⟨rfl, ⟨_, rfl, ?_⟩, ⟨parentHash, rfl, isParent⟩, ⟨groups, state.db, state.parent, exported, rfl, rfl,
    rfl, rfl⟩, fun event member account => exported_incarnations spelled exported member, lifecycle⟩
  rw [UInt64.toNat_ofNat_of_lt' (show first - 1 < 2 ^ 64 by omega)]
  omega

/-- What `convert` writes is accepted by the archive as the delta of the blocks exactly when the
last number is a `u64` and no block stores a value for an unborn address. -/
theorem convert_accepted {loads : Text → Result Json} {int16 : Text → Result Int} {first last : Nat}
    {previous : Json} {lines : List Text} {out : List ExportRecord}
    (positive : 1 ≤ first) (range : first ≤ last) (stored : db.Stored)
    (done : convert loads int16 first last db previous lines = .ok (out, later))
    (bounded : ∀ parent blocks, previous.get hashKey = some (.string parent) →
      replayBlocks loads first parent lines = .ok blocks → ∀ block ∈ blocks, block.Bounded env)
    (reads : ∀ records, List.Forall₂ (fun line record => ExportRecord.record line = .ok record) out records →
      ReadsBack env (out.map ExportRecord.dumps) records) :
    ∃ parent blocks, previous.get hashKey = some (.string parent) ∧
      replayBlocks loads first parent lines = .ok blocks ∧
      ((∃ package, readPackage env (asciiBytes (joinLines (out.map ExportRecord.dumps))) = .ok package ∧
          DeltaOf env first parent db blocks package) ↔
        last < 2 ^ 64 ∧ ¬ StoresUnborn db blocks) := by
  obtain ⟨_, _, rest⟩ := bind_eq_ok.mp done
  obtain ⟨value, isHash, rest⟩ := bind_eq_ok.mp rest
  obtain ⟨parent, isParent, rest⟩ := bind_eq_ok.mp rest
  obtain ⟨⟨total, state⟩, looped, rest⟩ := bind_eq_ok.mp rest
  obtain ⟨_, counted, rest⟩ := bind_eq_ok.mp rest
  cases rest
  obtain ⟨rfl, matched⟩ := patternValue_eq_ok isParent
  have shapedHeader : ∀ line ∈ [ExportRecord.header (hexNumber (first - 1)) parent], line.Shaped := by
    simp [ExportRecord.Shaped, hexNumber_printable, matched]
  obtain ⟨blocks, replayed, isTotal, isFinal, shapedLoop⟩ := convertLoop_replays shapedHeader matched looped
  rw [Nat.zero_add] at isTotal
  subst isTotal
  have ends : first + blocks.length = last + 1 := requires_eq_ok.mp counted
  have shaped : ∀ line ∈ state.out ++ [ExportRecord.trailer (hexNumber last) state.parent
      (hexNumber blocks.length)], line.Shaped :=
    List.forall_mem_append.mpr ⟨shapedLoop, by simp [ExportRecord.Shaped, hexNumber_printable, isFinal]⟩
  obtain ⟨records, recorded⟩ := shaped_records shaped
  have framed : ∀ line ∈ (state.out ++ [ExportRecord.trailer (hexNumber last) state.parent
      (hexNumber blocks.length)]).map ExportRecord.dumps, Framed line := by
    intro line member
    obtain ⟨record, inside, rfl⟩ := List.mem_map.mp member
    exact (shaped record inside).plain.framed
  have readAs := readPackage_written framed (by simp) (reads records recorded)
  have accepted := fun small inputSha256 => @convert_assembles _ _ _ _ _ _ _ _ _ _ inputSha256 positive range
    stored matched isFinal ends small looped replayed
    (bounded parent blocks (orContext_eq_ok.mp isHash) replayed) recorded
  refine ⟨parent, blocks, orContext_eq_ok.mp isHash, replayed, ?_⟩
  rw [readAs]
  constructor
  · rintro ⟨package, assembled, delta⟩
    obtain ⟨_, _, _, _, spelled, _⟩ := assemblePackage_eq_ok_iff.mp assembled
    have small := spelled_trailer recorded spelled
    obtain ⟨other, assembled', _, lifecycle⟩ := accepted small _
    obtain rfl := Except.ok.inj (assembled.symm.trans assembled')
    exact ⟨small, lifecycle.mp delta.lifecycle⟩
  · rintro ⟨small, none⟩
    obtain ⟨package, assembled, delta, lifecycle⟩ := accepted small _
    exact ⟨package, assembled, delta (lifecycle.mpr none)⟩

end

/-! One block with one account, live or never born. -/

def loneOwner : Text := '0' :: 'x' :: hexEncode (Fixed.ofNat 0x11 : Address).bytes

def loneCode : Hash32 := .ofNat 0x07ad118d6cc8642c86c03827f276d8b791a65e5c99a3845faf186be720a1455d

def loneState (live : Bool) : List (Text × Json) :=
  if live then [
    (existsKey, .bool true), (nonceKey, .string ['0', 'x', '1']), (balanceKey, .string ['0', 'x', '2']),
    (codeHashKey, .string (data32 loneCode))]
  else [(existsKey, .bool false)]

def loneReplay (live : Bool) : Json :=
  .object [
    (blockKey, .number ['1']),
    (hashKey, .string (data32 (.ofNat 0xab))),
    (parentHashKey, .string (data32 (.ofNat 0xaa))),
    (stateRootKey, .string (data32 (.ofNat 0xbb))),
    (timestampKey, .string ['0', 'x', '5']),
    (accountsKey, .object [(loneOwner, .object [
      (stateKey, .object (loneState live)), (previousExistsKey, .bool false), (wipedStorageKey, .bool false)])]),
    (storageKeyName, .object [(loneOwner, .object [
      (data32 (.ofNat 0x22), .string (data32 (.ofNat 0x33)))])]),
    (codesKey, .object [(data32 loneCode, .string ['0', 'x', '6', '0', '0', '0'])])]

def loneStateText (live : Bool) : List (Text × Text) :=
  if live then [
    (existsKey, jsonBool true), (nonceKey, jsonText ['0', 'x', '1']), (balanceKey, jsonText ['0', 'x', '2']),
    (codeHashKey, jsonHash loneCode)]
  else [(existsKey, jsonBool false)]

def loneRaw (live : Bool) : Text :=
  jsonObject [
    (blockKey, ['1']),
    (hashKey, jsonHash (.ofNat 0xab)),
    (parentHashKey, jsonHash (.ofNat 0xaa)),
    (stateRootKey, jsonHash (.ofNat 0xbb)),
    (timestampKey, jsonText ['0', 'x', '5']),
    (accountsKey, jsonObject [(loneOwner, jsonObject [
      (stateKey, jsonObject (loneStateText live)), (previousExistsKey, jsonBool false),
      (wipedStorageKey, jsonBool false)])]),
    (storageKeyName, jsonObject [(loneOwner, jsonObject [
      (data32 (.ofNat 0x22), jsonHash (.ofNat 0x33))])]),
    (codesKey, jsonObject [(data32 loneCode, jsonText ['0', 'x', '6', '0', '0', '0'])])]

def loneLoads (raw : Text) : Result Json :=
  if raw = loneRaw true then .ok (loneReplay true)
  else if raw = loneRaw false then .ok (loneReplay false)
  else bail "not in the table"

def loneInt16 (text : Text) : Result Int :=
  if text = ['0', 'x', '0'] then .ok 0 else bail "not in the table"

def lonePrevious : Json :=
  .object [(hashKey, .string (data32 (.ofNat 0xaa))), (numberKey, .string ['0', 'x', '0'])]

def loneBlockOf (live : Bool) : ReplayBlock :=
  ⟨data32 (.ofNat 0xab), data32 (.ofNat 0xaa), data32 (.ofNat 0xbb), ['0', 'x', '5'],
    [(loneOwner, ⟨false, live, false,
      if live then some (['0', 'x', '1'], ['0', 'x', '2'], data32 loneCode) else none⟩)],
    [(loneOwner, [(data32 (.ofNat 0x22), data32 (.ofNat 0x33))])],
    [(data32 loneCode, ['0', 'x', '6', '0', '0', '0'])]⟩

def loneOut (live : Bool) : List ExportRecord := [
  .header ['0', 'x', '0'] (data32 (.ofNat 0xaa)),
  .block ['0', 'x', '1'] (data32 (.ofNat 0xab)) (data32 (.ofNat 0xaa)) (data32 (.ofNat 0xbb)) ['0', 'x', '5'],
  .account ['0', 'x', '1'] loneOwner live ['0', 'x', '0']
    (if live then some (['0', 'x', '1'], ['0', 'x', '2'], data32 loneCode) else none),
  .storage ['0', 'x', '1'] loneOwner ['0', 'x', '0'] (data32 (.ofNat 0x22)) (data32 (.ofNat 0x33)),
  .code (data32 loneCode) ['0', 'x', '6', '0', '0', '0'],
  .blockEnd ['0', 'x', '1'] ['0', 'x', '3'],
  .trailer ['0', 'x', '1'] (data32 (.ofNat 0xab)) ['0', 'x', '1']]

def loneRecords (live : Bool) : List LineRecord := [
  .header exportSchema baseChainId exportGenesis deltaText none none (some ['0', 'x', '0'])
    (some (.ofNat 0xaa)),
  .block ['0', 'x', '1'] (.ofNat 0xab) (.ofNat 0xaa) (.ofNat 0xbb) ['0', 'x', '5'],
  .account ['0', 'x', '1'] (.ofNat 0x11) live ['0', 'x', '0'] (if live then some ['0', 'x', '1'] else none)
    (if live then some ['0', 'x', '2'] else none) (if live then some loneCode else none),
  .storage ['0', 'x', '1'] (.ofNat 0x11) ['0', 'x', '0'] (.ofNat 0x22) (.ofNat 0x33),
  .code loneCode ['0', 'x', '6', '0', '0', '0'],
  .blockEnd ['0', 'x', '1'] ['0', 'x', '3'],
  .trailer ['0', 'x', '1'] (.ofNat 0xab) ['0', 'x', '1']]

def loneExportEnv : Externals :=
  .ofTables
    { sha256 := digestOf [
        (asciiBytes (joinLines ((loneOut true).map ExportRecord.dumps)), 0xcbf235318e98f28cf88bddaaac29d40046c0d74c2e30bd47cb150b465e641c73),
        (asciiBytes (joinLines ((loneOut false).map ExportRecord.dumps)), 0x0ae2292be8de5f1bc45506e0d3402f31a8d2d5db0c9ec1ad65a1326ec3529996)]
      zstdCompress := fun _ => bail "not in the table"
      zstdDecompress := fun _ _ => bail "not in the table" }
    [([0x60, 0x00], 0x07ad118d6cc8642c86c03827f276d8b791a65e5c99a3845faf186be720a1455d)]
    (((loneOut true).map ExportRecord.dumps).zip (loneRecords true) ++
      ((loneOut false).map ExportRecord.dumps).zip (loneRecords false)) []

theorem convert_lone (live : Bool) :
    ∃ later, convert loneLoads loneInt16 1 1 Journal.empty lonePrevious [loneRaw live] =
      .ok (loneOut live, later) := by
  have ran : (convert loneLoads loneInt16 1 1 Journal.empty lonePrevious [loneRaw live]).toOption.map
      Prod.fst = some (loneOut live) := by
    cases live <;> decide +kernel
  cases done : convert loneLoads loneInt16 1 1 Journal.empty lonePrevious [loneRaw live] with
  | error =>
      rw [done] at ran
      cases ran
  | ok result =>
      rw [done] at ran
      obtain ⟨out, later⟩ := result
      exact ⟨later, by rw [show out = loneOut live from Option.some.inj ran]⟩

theorem convert_accepted_lone :
    ∃ later parent blocks package,
      convert loneLoads loneInt16 1 1 Journal.empty lonePrevious [loneRaw true] =
        .ok (loneOut true, later) ∧
      readPackage loneExportEnv (asciiBytes (joinLines ((loneOut true).map ExportRecord.dumps))) = .ok package ∧
      DeltaOf loneExportEnv 1 parent Journal.empty blocks package := by
  obtain ⟨later, done⟩ := convert_lone true
  have replayed : replayBlocks loneLoads 1 (data32 (.ofNat 0xaa)) [loneRaw true] =
      .ok [loneBlockOf true] := by decide +kernel
  have code : parseData ['0', 'x', '6', '0', '0', '0'] = .ok [0x60, 0x00] := by decide
  have named : parseFixed 32 (data32 loneCode) = .ok (loneExportEnv.keccak256 [0x60, 0x00]) := by
    decide +kernel
  have boundedBlock : (loneBlockOf true).Bounded loneExportEnv := by
    refine ⟨by decide, ?_, ?_⟩
    · intro row member nonce balance codeHash state
      obtain rfl := List.mem_singleton.mp member
      cases state
      exact ⟨by decide, by decide⟩
    · intro row member bytes parsed
      obtain rfl := List.mem_singleton.mp member
      obtain rfl := Except.ok.inj (code.symm.trans parsed)
      exact named
  have bounded : ∀ parent blocks, lonePrevious.get hashKey = some (.string parent) →
      replayBlocks loneLoads 1 parent [loneRaw true] = .ok blocks →
        ∀ block ∈ blocks, block.Bounded loneExportEnv := by
    intro parent blocks given again block member
    obtain rfl : data32 (.ofNat 0xaa) = parent := Json.string.inj (Option.some.inj given)
    obtain rfl := Except.ok.inj (replayed.symm.trans again)
    obtain rfl := List.mem_singleton.mp member
    exact boundedBlock
  have recorded : List.Forall₂ (fun line record => ExportRecord.record line = .ok record) (loneOut true)
      (loneRecords true) := by decide +kernel
  have back : ReadsBack loneExportEnv ((loneOut true).map ExportRecord.dumps) (loneRecords true) :=
    ⟨by decide +kernel, by decide +kernel⟩
  have stored : Journal.empty.Stored := by
    intro address row found
    cases found
  obtain ⟨parent, blocks, given, again, accepted⟩ :=
    convert_accepted (by decide) (by decide) stored done bounded
      (fun records reads => records_unique recorded reads ▸ back)
  obtain rfl : data32 (.ofNat 0xaa) = parent := Json.string.inj (Option.some.inj given)
  obtain rfl := Except.ok.inj (replayed.symm.trans again)
  have born : ¬ StoresUnborn Journal.empty [loneBlockOf true] := by
    rintro ⟨before, block, after, whole, row, stored, unborn, _⟩
    cases before with
    | nil =>
        obtain ⟨rfl, rfl⟩ := List.cons.inj whole
        obtain rfl := List.mem_singleton.mp stored
        have never := (unborn.2.2 (loneBlockOf true) (by simp) _ (List.mem_singleton.mpr rfl) rfl).2
        cases never
    | cons head before => simp at whole
  obtain ⟨package, read, delta⟩ := accepted.mpr ⟨by decide, born⟩
  exact ⟨later, _, _, package, done, read, delta⟩

/-- An account that neither exists nor existed is exported with a slot that is not zero; the
archive refuses to publish the package. -/
theorem convert_unborn :
    (∃ later, convert loneLoads loneInt16 1 1 Journal.empty lonePrevious [loneRaw false] =
      .ok (loneOut false, later)) ∧
    ∃ package,
      readPackage loneExportEnv (asciiBytes (joinLines ((loneOut false).map ExportRecord.dumps))) = .ok package ∧
      validateLifecycle loneExportEnv package =
        bail "storage record does not match its account incarnation" := by
  refine ⟨convert_lone false, ?_⟩
  have refused : (readPackage loneExportEnv
      (asciiBytes (joinLines ((loneOut false).map ExportRecord.dumps)))).toOption.map
        (validateLifecycle loneExportEnv) =
      some (bail "storage record does not match its account incarnation") := by decide +kernel
  cases read : readPackage loneExportEnv (asciiBytes (joinLines ((loneOut false).map ExportRecord.dumps))) with
  | error =>
      rw [read] at refused
      cases refused
  | ok package =>
      rw [read] at refused
      exact ⟨package, rfl, Option.some.inj refused⟩

end Fossil
