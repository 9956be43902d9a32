import Sub0Log.Reader.Containment
import Sub0Log.Reader.Typed

/-!
# The typed layer accounts for every record

**`decodeAll_accounts`**: after a fresh decoder has read a segment, the returned and
the undecodable records are together the Messages and the malformed definitions; the
skipped ones are the kinds the layer has no shape for and the Continuations no chain
was waiting for.

Pass one is a count and a table (`passOne_spec`). Pass two is a state machine over
the stream; `ChainInv` says what its state knows of the records done so far:

* at most one record is pending, exactly when a chain is open (`opened`);
* every Message done is published, pending or counted (`count`);
* published and pending records name distinct Messages, in stream order (`offsets`);
* each is its Message decoded, with Bytes arguments extended at the end (`decoded`).

`step_inv` carries it over one record, the rule for loops over the whole stream.
-/

open Bytes Checked

namespace Sub0Log.Reader

open Wire

/-! ### What there is to account for -/

def isMessage (v : RecordView) : Bool := v.head.kind == .message

/-- A site definition with a length that does not fit. -/
def malformedSite (v : RecordView) : Bool :=
  v.head.kind == .siteDefinition && (siteDefinition v.payload).isNone

/-- A subsystem definition with a length that does not fit. -/
def malformedSubsystem (v : RecordView) : Bool :=
  v.head.kind == .subsystemDefinition && (subsystemDefinition v.payload).isNone

/-- A kind this layer has no shape for. -/
def isOther (v : RecordView) : Bool :=
  !(v.head.kind == .message || v.head.kind == .siteDefinition ||
    v.head.kind == .subsystemDefinition || v.head.kind == .continuation)

/-- A chain is open after the record, if `isOpen` says whether one was before it: a
Message that decodes and promises a Continuation opens one, a Continuation that
promises another keeps it open, any other record ends it. -/
def chainStep (sites : List DecodedSite) (isOpen : Bool) (v : RecordView) : Bool :=
  if v.head.kind = .message then (message sites 0 v).isSome && PassTwo.continued v
  else if v.head.kind = .continuation then isOpen && PassTwo.continued v
  else false

/-- A chain is open after the whole stream. -/
def chainOpen (sites : List DecodedSite) (records : List RecordView) : Bool :=
  records.foldl (chainStep sites) false

/-- The Continuations of a stream that arrive with no chain open. -/
def orphans (sites : List DecodedSite) : (isOpen : Bool) → List RecordView → Nat
  | _, [] => 0
  | isOpen, v :: vs =>
    (if v.head.kind = .continuation ∧ isOpen = false then 1 else 0)
      + orphans sites (chainStep sites isOpen v) vs

theorem chainOpen_concat (sites : List DecodedSite) (done : List RecordView) (v : RecordView) :
    chainOpen sites (done ++ [v]) = chainStep sites (chainOpen sites done) v := by
  rw [chainOpen, List.foldl_append]
  rfl

theorem orphans_append (sites : List DecodedSite) (isOpen : Bool) (done rest : List RecordView) :
    orphans sites isOpen (done ++ rest) =
      orphans sites isOpen done + orphans sites (done.foldl (chainStep sites) isOpen) rest := by
  induction done generalizing isOpen with
  | nil => simp [orphans]
  | cons v done ih =>
    rw [List.cons_append, orphans, orphans, ih, List.foldl_cons, Nat.add_assoc]

theorem orphans_concat (sites : List DecodedSite) (done : List RecordView) (v : RecordView) :
    orphans sites false (done ++ [v]) = orphans sites false done +
      if v.head.kind = .continuation ∧ chainOpen sites done = false then 1 else 0 := by
  rw [orphans_append, orphans, orphans, Nat.add_zero]
  rfl

/-- Whether a Message decodes does not depend on the generation it is stamped with. -/
theorem message_isSome (sites : List DecodedSite) (generation : UInt64) (v : RecordView) :
    (message sites generation v).isSome = (message sites 0 v).isSome := by
  unfold message
  split
  · split
    · rfl
    · rw [Option.isSome_map, Option.isSome_map]
  · rfl

theorem countP_concat {α : Type} (p : α → Bool) (l : List α) (a : α) :
    (l ++ [a]).countP p = l.countP p + if p a then 1 else 0 := by
  rw [List.countP_append, List.countP_singleton]

/-! ### Pass one -/

/-- Pass one after the records `done`, from a fresh decoder. -/
structure PassOneInv (done : List RecordView) (d : Decoder) : Prop where
  undecodable : d.undecodable = done.countP malformedSite + done.countP malformedSubsystem
  skipped : d.skipped = done.countP isOther
  sites : ∀ id, siteFor d.sites id = siteFor (definitions done) id

theorem definitions_concat (done : List RecordView) (v : RecordView) :
    definitions (done ++ [v]) = definitions done ++ (definitionOf v).toList := by
  unfold definitions
  rw [List.filterMap_append]
  cases h : definitionOf v with
  | none => rw [List.filterMap_cons_none h]; rfl
  | some site => rw [List.filterMap_cons_some h]; rfl

theorem passOne_step (done : List RecordView) (v : RecordView) (d : Decoder)
    (h : PassOneInv done d) : ∃ d', passOne d v = .ok d' ∧ PassOneInv (done ++ [v]) d' := by
  obtain ⟨hundecodable, hskipped, hsites⟩ := h
  have hdef : v.head.kind ≠ .siteDefinition → definitionOf v = none := fun hne => if_neg hne
  cases hkind : v.head.kind with
  | siteDefinition =>
    have hother : isOther v = false := by simp [isOther, hkind]
    have hsub : malformedSubsystem v = false := by simp [malformedSubsystem, hkind]
    have hdefv : definitionOf v = siteDefinition v.payload := if_pos hkind
    unfold passOne
    rw [hkind]
    simp only
    rw [parseSiteDefinition_eq]
    simp only [ok_bind]
    cases hsite : siteDefinition v.payload with
    | none =>
      have hmal : malformedSite v = true := by simp [malformedSite, hkind, hsite]
      refine ⟨_, rfl, ?_, ?_, fun id => ?_⟩
      · simp only [countP_concat, hmal, hsub, if_true, Bool.false_eq_true, if_false]
        omega
      · simp only [countP_concat, hother, Bool.false_eq_true, if_false]
        exact hskipped
      · rw [definitions_concat, hdefv, hsite, Option.toList_none, List.append_nil]
        exact hsites id
    | some site =>
      have hmal : malformedSite v = false := by simp [malformedSite, hsite]
      have htable := fun id => siteFor_tryEmplace d.sites site id
      -- keep the first of an id: every lookup is as if the site had been appended
      have hgoal : ∀ d' : Decoder, d'.undecodable = d.undecodable → d'.skipped = d.skipped →
          (∀ id, siteFor d'.sites id = siteFor (d.sites ++ [site]) id) →
          PassOneInv (done ++ [v]) d' := by
        intro d' h₁ h₂ h₃
        refine ⟨?_, ?_, fun id => ?_⟩
        · simp only [countP_concat, hmal, hsub, Bool.false_eq_true, if_false, h₁]
          omega
        · simp only [countP_concat, hother, Bool.false_eq_true, if_false, h₂]
          exact hskipped
        · rw [h₃, definitions_concat, hdefv, hsite, Option.toList_some, siteFor_append,
            siteFor_append, hsites]
      simp only
      by_cases hknown : (siteFor d.sites site.siteId).isSome = true
      · simp only [hknown, if_true] at htable ⊢
        exact ⟨d, rfl, hgoal d rfl rfl htable⟩
      · rw [if_neg hknown]
        exact ⟨_, rfl, hgoal _ rfl rfl fun id => rfl⟩
  | subsystemDefinition =>
    have hother : isOther v = false := by simp [isOther, hkind]
    have hsite : malformedSite v = false := by simp [malformedSite, hkind]
    have hdefv : definitionOf v = none := hdef (by rw [hkind]; decide)
    have hgoal : ∀ d' : Decoder,
        d'.undecodable = d.undecodable + (if malformedSubsystem v then 1 else 0) →
        d'.skipped = d.skipped → d'.sites = d.sites → PassOneInv (done ++ [v]) d' := by
      intro d' h₁ h₂ h₃
      refine ⟨?_, ?_, fun id => ?_⟩
      · simp only [countP_concat, hsite, Bool.false_eq_true, if_false, h₁]
        omega
      · simp only [countP_concat, hother, Bool.false_eq_true, if_false, h₂]
        exact hskipped
      · rw [h₃, definitions_concat, hdefv, Option.toList_none, List.append_nil]
        exact hsites id
    unfold passOne
    rw [hkind]
    simp only
    rw [parseSubsystemDefinition_eq]
    simp only [ok_bind]
    cases hname : subsystemDefinition v.payload with
    | none =>
      have hmal : malformedSubsystem v = true := by simp [malformedSubsystem, hkind, hname]
      exact ⟨_, rfl, hgoal _ (by rw [hmal]; rfl) rfl rfl⟩
    | some entry =>
      have hmal : malformedSubsystem v = false := by simp [malformedSubsystem, hname]
      obtain ⟨id, name⟩ := entry
      simp only
      split
      · exact ⟨_, rfl, hgoal _ (by rw [hmal]; rfl) rfl rfl⟩
      · exact ⟨_, rfl, hgoal _ (by rw [hmal]; rfl) rfl rfl⟩
  | message | continuation | invalid | blob | childOutput | childStart | childExit | other _ =>
    have hsite : malformedSite v = false := by simp [malformedSite, hkind]
    have hsub : malformedSubsystem v = false := by simp [malformedSubsystem, hkind]
    have hdefv : definitionOf v = none := hdef (by rw [hkind]; simp)
    unfold passOne
    rw [hkind]
    refine ⟨_, rfl, ?_, ?_, fun id => ?_⟩
    · simp only [countP_concat, hsite, hsub, Bool.false_eq_true, if_false]
      omega
    · simp [isOther, hkind, hskipped]
    · rw [definitions_concat, hdefv, Option.toList_none, List.append_nil]
      exact hsites id

/-! ### Decoded from -/

/-- The second argument is the first, or a string the first is the beginning of. -/
def ArgExtends (a b : DecodedArg) : Prop :=
  a = b ∨ ∃ x y, a = .bytes x ∧ b = .bytes (x ++ y)

theorem ArgExtends.trans {a b c : DecodedArg} (h₁ : ArgExtends a b) (h₂ : ArgExtends b c) :
    ArgExtends a c := by
  rcases h₁ with rfl | ⟨x, y, rfl, rfl⟩
  · exact h₂
  · rcases h₂ with rfl | ⟨x', z, hx', rfl⟩
    · exact Or.inr ⟨x, y, rfl, rfl⟩
    · cases hx'
      exact Or.inr ⟨x, y ++ z, rfl, by rw [List.append_assoc]⟩

/-- `rec` is `base` with some arguments extended. -/
structure RecordExtends (base rec : DecodedRecord) : Prop where
  rest : rec = { base with args := rec.args }
  length : rec.args.length = base.args.length
  args : ∀ (idx : Nat) a, base.args[idx]? = some a → ∃ b, rec.args[idx]? = some b ∧ ArgExtends a b

theorem RecordExtends.refl (rec : DecodedRecord) : RecordExtends rec rec :=
  ⟨rfl, rfl, fun _ a ha => ⟨a, ha, Or.inl rfl⟩⟩

/-- Extending one string argument further. -/
theorem RecordExtends.set {base rec : DecodedRecord} (h : RecordExtends base rec) {idx : Nat}
    {value tail : List UInt8} (hvalue : rec.args[idx]? = some (.bytes value)) :
    RecordExtends base { rec with args := rec.args.set idx (.bytes (value ++ tail)) } := by
  refine ⟨?_, ?_, fun i a ha => ?_⟩
  · rw [h.rest]
  · simp only [List.length_set, h.length]
  · obtain ⟨b, hb, hext⟩ := h.args i a ha
    by_cases hi : i = idx
    · subst hi
      rw [hvalue, Option.some.injEq] at hb
      subst hb
      refine ⟨.bytes (value ++ tail), ?_, hext.trans (Or.inr ⟨value, tail, rfl, rfl⟩)⟩
      have hlt : i < rec.args.length := (List.getElem?_eq_some_iff.mp hvalue).1
      rw [List.getElem?_set_self hlt]
    · exact ⟨b, by rw [List.getElem?_set_ne (Ne.symm hi)]; exact hb, hext⟩

/-- `rec` is the Message `m` decoded, with some Bytes arguments extended. -/
def DecodedFrom (sites : List DecodedSite) (generation : UInt64) (m : RecordView)
    (rec : DecodedRecord) : Prop :=
  m.head.kind = .message ∧ ∃ base, message sites generation m = some base ∧
    RecordExtends base rec

/-! ### Pass two -/

/-- What the pending record and its owned strings have to agree on. -/
structure PendingInv (rec : DecodedRecord) (owned : List (Option (List UInt8))) : Prop where
  length : owned.length = rec.args.length
  bytes : ∀ idx : Nat, rec.site.argTypes[idx]? = some .bytes →
    ∃ value, rec.args[idx]? = some (.bytes value)
  joined : ∀ (idx : Nat) value, owned[idx]? = some (some value) →
    rec.args[idx]? = some (.bytes value)

/-- Pass two after the records `done`; `undecodable` and `skipped` are what pass one
left in the counters. -/
structure ChainInv (sites : List DecodedSite) (generation : UInt64) (undecodable skipped : Nat)
    (done : List RecordView) (s : PassTwo) : Prop where
  count : s.result.length + s.pending.toList.length + s.undecodable =
    undecodable + done.countP isMessage
  skips : s.skipped = skipped + orphans sites false done
  expecting : s.expectingContinuation = s.pending.isSome
  opened : s.pending.isSome = chainOpen sites done
  undamaged : s.pending = none → s.damaged = false
  offsets : ((s.result ++ s.pending.toList).map DecodedRecord.recordOffset).Sublist
    ((done.filter isMessage).map RecordView.recordOffset)
  decoded : ∀ rec ∈ s.result ++ s.pending.toList,
    ∃ m ∈ done, DecodedFrom sites generation m rec
  owned : ∀ rec, s.pending = some rec → PendingInv rec s.pendingOwned

section PassTwo

variable {sites : List DecodedSite} {generation : UInt64} {undecodable skipped : Nat}
  {done : List RecordView} {s : PassTwo}

/-- Ending a chain keeps the counts; the record is published or counted. -/
theorem finalizePending_facts (s : PassTwo) (hd : s.pending = none → s.damaged = false)
    (he : s.expectingContinuation = s.pending.isSome) :
    s.finalizePending.pending = none ∧ s.finalizePending.damaged = false ∧
      s.finalizePending.expectingContinuation = false ∧
      s.finalizePending.skipped = s.skipped ∧
      s.finalizePending.result.length + s.finalizePending.undecodable =
        s.result.length + s.pending.toList.length + s.undecodable ∧
      s.finalizePending.result.Sublist (s.result ++ s.pending.toList) := by
  unfold PassTwo.finalizePending
  cases hp : s.pending with
  | none =>
    rw [hp] at he
    refine ⟨hp, hd hp, he, rfl, by simp, by simp⟩
  | some rec =>
    refine ⟨rfl, rfl, rfl, rfl, ?_, ?_⟩
    · cases s.damaged with
      | true => simp only [if_true, Option.toList_some, List.length_singleton]; omega
      | false => simp only [Bool.false_eq_true, if_false, Option.toList_some,
          List.length_append, List.length_singleton]
    · cases s.damaged <;> simp

theorem filter_isMessage_concat (done : List RecordView) (v : RecordView) :
    (done ++ [v]).filter isMessage = done.filter isMessage ++ if isMessage v then [v] else [] := by
  rw [List.filter_append, List.filter_singleton]
  cases isMessage v <;> rfl

/-- A record outside any chain keeps the invariant. -/
theorem handleRecord_inv (v : RecordView)
    (hcount : s.result.length + s.undecodable = undecodable + done.countP isMessage)
    (hskips : s.skipped + (if v.head.kind = .continuation then 1 else 0) =
      skipped + orphans sites false (done ++ [v]))
    (hopen : chainOpen sites (done ++ [v]) = chainStep sites false v)
    (hpending : s.pending = none) (hdamaged : s.damaged = false)
    (hexpecting : s.expectingContinuation = false)
    (hoffsets : (s.result.map DecodedRecord.recordOffset).Sublist
      ((done.filter isMessage).map RecordView.recordOffset))
    (hdecoded : ∀ rec ∈ s.result, ∃ m ∈ done, DecodedFrom sites generation m rec) :
    ∃ s', PassTwo.handleRecord sites generation s v = .ok s' ∧
      ChainInv sites generation undecodable skipped (done ++ [v]) s' := by
  have hlater : ∀ rec, (∃ m ∈ done, DecodedFrom sites generation m rec) →
      ∃ m ∈ done ++ [v], DecodedFrom sites generation m rec :=
    fun rec ⟨m, hm, hfrom⟩ => ⟨m, List.mem_append_left _ hm, hfrom⟩
  unfold PassTwo.handleRecord
  by_cases hcont : v.head.kind = .continuation
  · -- an orphan
    have hmsg : isMessage v = false := by simp [isMessage, hcont]
    rw [if_pos hcont] at hskips ⊢
    refine ⟨_, rfl, ?_⟩
    constructor
    case count => simpa [hmsg, hpending] using hcount
    case skips => exact hskips
    case expecting => rw [hpending]; exact hexpecting
    case opened => rw [hpending, hopen]; simp [chainStep, hcont]
    case undamaged => exact fun _ => hdamaged
    case offsets => simpa [filter_isMessage_concat, hmsg, hpending] using hoffsets
    case decoded =>
      intro rec hrec
      rw [hpending, Option.toList_none, List.append_nil] at hrec
      exact hlater rec (hdecoded rec hrec)
    case owned => intro rec hrec; rw [hpending] at hrec; cases hrec
  rw [if_neg hcont] at hskips ⊢
  by_cases hmessage : v.head.kind ≠ .message
  · -- a kind pass one has handled
    have hmsg : isMessage v = false := by simp [isMessage, hmessage]
    rw [if_pos hmessage]
    refine ⟨_, rfl, ?_⟩
    constructor
    case count => simpa [hmsg, hpending] using hcount
    case skips => exact hskips
    case expecting => rw [hpending]; exact hexpecting
    case opened => rw [hpending, hopen]; simp [chainStep, hcont, hmessage]
    case undamaged => exact fun _ => hdamaged
    case offsets => simpa [filter_isMessage_concat, hmsg, hpending] using hoffsets
    case decoded =>
      intro rec hrec
      rw [hpending, Option.toList_none, List.append_nil] at hrec
      exact hlater rec (hdecoded rec hrec)
    case owned => intro rec hrec; rw [hpending] at hrec; cases hrec
  have hkind : v.head.kind = .message := by simpa using hmessage
  have hmsg : isMessage v = true := by simp [isMessage, hkind]
  have hsome := message_isSome sites generation v
  rw [if_neg hmessage, decodeMessage_eq]
  simp only [ok_bind]
  cases hdec : message sites generation v with
  | none =>
    refine ⟨_, rfl, ?_⟩
    rw [hdec] at hsome
    constructor
    case count => simp [hmsg, hpending]; omega
    case skips => exact hskips
    case expecting => rw [hpending]; exact hexpecting
    case opened => rw [hpending, hopen]; simp [chainStep, hkind, ← hsome]
    case undamaged => exact fun _ => hdamaged
    case offsets =>
      rw [hpending, Option.toList_none, List.append_nil, filter_isMessage_concat, List.map_append]
      exact hoffsets.trans (List.sublist_append_left _ _)
    case decoded =>
      intro rec hrec
      rw [hpending, Option.toList_none, List.append_nil] at hrec
      exact hlater rec (hdecoded rec hrec)
    case owned => intro rec hrec; rw [hpending] at hrec; cases hrec
  | some rec =>
    rw [hdec] at hsome
    have hfrom : DecodedFrom sites generation v rec :=
      ⟨hkind, rec, hdec, RecordExtends.refl rec⟩
    obtain ⟨-, hargs, hoffset⟩ := message_some hdec
    have hnewOffsets : ((s.result ++ [rec]).map DecodedRecord.recordOffset).Sublist
        (((done ++ [v]).filter isMessage).map RecordView.recordOffset) := by
      rw [filter_isMessage_concat, hmsg, if_pos rfl, List.map_append, List.map_append]
      refine hoffsets.append ?_
      rw [List.map_singleton, List.map_singleton, hoffset]
    have hnewDecoded : ∀ rec' ∈ s.result ++ [rec],
        ∃ m ∈ done ++ [v], DecodedFrom sites generation m rec' := by
      intro rec' hrec'
      rcases List.mem_append.mp hrec' with hrec' | hrec'
      · exact hlater rec' (hdecoded rec' hrec')
      · rw [List.mem_singleton] at hrec'
        exact ⟨v, by simp, hrec' ▸ hfrom⟩
    simp only
    by_cases hcontinued : PassTwo.continued v = true
    · -- held until its chain ends
      rw [if_pos hcontinued]
      refine ⟨_, rfl, ?_⟩
      constructor
      case count => simp [hmsg]; omega
      case skips => exact hskips
      case expecting => rfl
      case opened => rw [hopen]; simp [chainStep, hkind, ← hsome, hcontinued]
      case undamaged => exact fun h => nomatch h
      case offsets => exact hnewOffsets
      case decoded => exact hnewDecoded
      case owned =>
        intro rec' hrec'
        cases hrec'
        refine ⟨List.length_replicate, (argsAt_some hargs).2, fun idx value hjoined => ?_⟩
        have hget := List.mem_of_getElem? hjoined
        have hnone := List.eq_of_mem_replicate hget
        cases hnone
    · rw [if_neg hcontinued]
      refine ⟨_, rfl, ?_⟩
      constructor
      case count => simp [hmsg, hpending]; omega
      case skips => exact hskips
      case expecting => rw [hpending]; exact hexpecting
      case opened => rw [hpending, hopen]; simp [chainStep, hkind, hcontinued]
      case undamaged => exact fun _ => hdamaged
      case offsets => rw [hpending, Option.toList_none, List.append_nil]; exact hnewOffsets
      case decoded =>
        intro rec' hrec'
        rw [hpending, Option.toList_none, List.append_nil] at hrec'
        exact hnewDecoded rec' hrec'
      case owned => intro rec' hrec'; rw [hpending] at hrec'; cases hrec'

/-- The bytes joined so far are those of the argument in the pending record. -/
theorem joinedSoFar_eq {rec : DecodedRecord} (h : PendingInv rec s.pendingOwned) {idx : Nat}
    (hbytes : rec.site.argTypes[idx]? = some .bytes) :
    ∃ value, rec.args[idx]? = some (.bytes value) ∧ s.joinedSoFar rec idx = .ok value := by
  obtain ⟨value, hvalue⟩ := h.bytes idx hbytes
  refine ⟨value, hvalue, ?_⟩
  unfold PassTwo.joinedSoFar
  cases howned : s.pendingOwned[idx]?.join with
  | some owned =>
    obtain ⟨entry, hentry⟩ : ∃ entry, s.pendingOwned[idx]? = some entry := by
      cases hget : s.pendingOwned[idx]? with
      | none => rw [hget] at howned; cases howned
      | some entry => exact ⟨entry, rfl⟩
    rw [hentry] at howned
    have hjoined := h.joined idx owned (hentry.trans (by rw [show entry = some owned from howned]))
    rw [hvalue] at hjoined
    cases hjoined
    rfl
  | none =>
    simp only [hvalue]
    rfl

/-- A string argument and its owned string are extended together. -/
theorem PendingInv.set {rec : DecodedRecord} {owned : List (Option (List UInt8))}
    (h : PendingInv rec owned) {idx : Nat} {value tail : List UInt8}
    (hvalue : rec.args[idx]? = some (.bytes value)) :
    PendingInv { rec with args := rec.args.set idx (.bytes (value ++ tail)) }
      (owned.set idx (some (value ++ tail))) := by
  have hlt : idx < rec.args.length := (List.getElem?_eq_some_iff.mp hvalue).1
  refine ⟨?_, fun i hi => ?_, fun i value' hi => ?_⟩
  · simp only [List.length_set, h.length]
  · by_cases heq : i = idx
    · subst heq
      exact ⟨_, List.getElem?_set_self hlt⟩
    · obtain ⟨value', hvalue'⟩ := h.bytes i hi
      exact ⟨value', by simp only [List.getElem?_set_ne (Ne.symm heq), hvalue']⟩
  · by_cases heq : i = idx
    · subst heq
      have hlt' : i < owned.length := by rw [h.length]; exact hlt
      simp only [List.getElem?_set_self hlt', Option.some.injEq] at hi
      subst hi
      exact List.getElem?_set_self hlt
    · simp only [List.getElem?_set_ne (Ne.symm heq)] at hi ⊢
      exact h.joined i value' hi

/-- A slice is joined to a string argument of the pending record, or the chain is
damaged; either way nothing else changes. -/
theorem joinSlice_facts {rec : DecodedRecord} (hpending : s.pending = some rec)
    (hinv : PendingInv rec s.pendingOwned) {payload : List UInt8}
    (hsize : sizeofContinuationPayload ≤ payload.length) :
    ∃ s' rec', s.joinSlice payload = .ok s' ∧ s'.pending = some rec' ∧
      PendingInv rec' s'.pendingOwned ∧ s'.result = s.result ∧
      s'.undecodable = s.undecodable ∧ s'.skipped = s.skipped ∧
      s'.expectingContinuation = s.expectingContinuation ∧
      ∀ base, RecordExtends base rec → RecordExtends base rec' := by
  unfold PassTwo.joinSlice
  rw [Checked.read_eq (by omega)]
  simp only [ok_bind]
  generalize (ContinuationPayload.ofBytes
    ((payload.drop 0).take sizeofContinuationPayload)).argIndex.toNat = idx
  by_cases hvalid : s.validTarget idx = false
  · rw [if_pos hvalid]
    exact ⟨_, rec, rfl, hpending, hinv, rfl, rfl, rfl, rfl, fun base h => h⟩
  rw [if_neg hvalid, hpending]
  have htarget : rec.site.argTypes[idx]? = some .bytes := by
    unfold PassTwo.validTarget at hvalid
    rw [hpending] at hvalid
    simp only [Bool.not_eq_false, Bool.and_eq_true, beq_iff_eq] at hvalid
    exact hvalid.2
  obtain ⟨value, hvalue, hjoined⟩ := joinedSoFar_eq hinv htarget
  have hlt : idx < rec.args.length := (List.getElem?_eq_some_iff.mp hvalue).1
  simp only
  rw [hjoined, ok_bind, sub64_eq hsize]
  simp only [ok_bind]
  rw [Checked.read_eq (by omega)]
  simp only [ok_bind]
  exact ⟨_, _, rfl, rfl, hinv.set hvalue, rfl, rfl, rfl, rfl, fun base h => h.set hvalue⟩

/-- A Continuation a chain was waiting for keeps the invariant. -/
theorem consumeContinuation_inv (v : RecordView) {rec : DecodedRecord}
    (h : ChainInv sites generation undecodable skipped done s) (hpending : s.pending = some rec)
    (hcont : v.head.kind = .continuation) :
    ∃ s', s.consumeContinuation v = .ok s' ∧
      ChainInv sites generation undecodable skipped (done ++ [v]) s' := by
  have hopenDone : chainOpen sites done = true := by rw [← h.opened, hpending]; rfl
  have hmsg : isMessage v = false := by simp [isMessage, hcont]
  have hcountV : (done ++ [v]).countP isMessage = done.countP isMessage := by
    simp [hmsg]
  have horphans : orphans sites false (done ++ [v]) = orphans sites false done := by
    rw [orphans_concat, hopenDone]
    simp
  have hopenV : chainOpen sites (done ++ [v]) = PassTwo.continued v := by
    rw [chainOpen_concat, hopenDone]
    simp [chainStep, hcont]
  have hfilter : (done ++ [v]).filter isMessage = done.filter isMessage := by
    simp [hmsg]
  -- the slice is consumed, whatever becomes of it
  obtain ⟨s', rec', hstep, hpending', howned', hresult', hundec', hskip', hexp', hext⟩ :
      ∃ s' rec', s.consumeSlice v.payload = .ok s' ∧ s'.pending = some rec' ∧
        PendingInv rec' s'.pendingOwned ∧ s'.result = s.result ∧ s'.undecodable = s.undecodable ∧ s'.skipped = s.skipped ∧
        s'.expectingContinuation = s.expectingContinuation ∧
        ∀ base, RecordExtends base rec → RecordExtends base rec' := by
    unfold PassTwo.consumeSlice
    by_cases hsize : v.payload.length < sizeofContinuationPayload
    · rw [if_pos hsize]
      exact ⟨_, rec, rfl, hpending, h.owned rec hpending, rfl, rfl, rfl, rfl, fun base h => h⟩
    · rw [if_neg hsize]
      exact joinSlice_facts hpending (h.owned rec hpending) (Nat.le_of_not_lt hsize)
  have hoffset : rec'.recordOffset = rec.recordOffset := by
    rw [(hext rec (RecordExtends.refl rec)).rest]
  have hdecoded' : ∀ r ∈ s'.result ++ s'.pending.toList,
      ∃ m ∈ done ++ [v], DecodedFrom sites generation m r := by
    intro r hr
    rw [hresult', hpending'] at hr
    rcases List.mem_append.mp hr with hr | hr
    · obtain ⟨m, hm, hfrom⟩ := h.decoded r (List.mem_append_left _ hr)
      exact ⟨m, List.mem_append_left _ hm, hfrom⟩
    · rw [Option.toList_some, List.mem_singleton] at hr
      subst hr
      obtain ⟨m, hm, hkind, base, hbase, hbaseExt⟩ := h.decoded rec (by rw [hpending]; simp)
      exact ⟨m, List.mem_append_left _ hm, hkind, base, hbase, hext base hbaseExt⟩
  have hoffsets' : ((s'.result ++ s'.pending.toList).map DecodedRecord.recordOffset).Sublist
      (((done ++ [v]).filter isMessage).map RecordView.recordOffset) := by
    have hoff := h.offsets
    rw [hpending] at hoff
    rw [hresult', hpending', hfilter]
    simpa [hoffset] using hoff
  have hcount' : s'.result.length + s'.pending.toList.length + s'.undecodable =
      undecodable + (done ++ [v]).countP isMessage := by
    have hc := h.count
    rw [hpending] at hc
    rw [hresult', hpending', hundec', hcountV]
    exact hc
  unfold PassTwo.consumeContinuation
  rw [hstep]
  simp only [ok_bind]
  by_cases hmore : PassTwo.continued v = true
  · rw [if_pos hmore]
    refine ⟨_, rfl, ?_⟩
    constructor
    case count => exact hcount'
    case skips => rw [horphans]; exact hskip'.trans h.skips
    case expecting => simp only [hpending']; rfl
    case opened => rw [hopenV, hmore]; simp only [hpending']; rfl
    case undamaged => intro hnone; simp only [hpending'] at hnone; cases hnone
    case offsets => exact hoffsets'
    case decoded => exact hdecoded'
    case owned =>
      intro r hr
      simp only [hpending', Option.some.injEq] at hr
      subst hr
      exact howned'
  · rw [if_neg hmore]
    have hundamaged : s'.pending = none → s'.damaged = false := by
      intro hnone; rw [hpending'] at hnone; cases hnone
    have hexpect : s'.expectingContinuation = s'.pending.isSome := by
      rw [hexp', h.expecting, hpending, hpending']
      rfl
    obtain ⟨hp, hd, he, hs, hc, hsub⟩ := finalizePending_facts s' hundamaged hexpect
    refine ⟨_, rfl, ?_⟩
    constructor
    case count => rw [hp, Option.toList_none, List.length_nil, Nat.add_zero, hc]; exact hcount'
    case skips => rw [hs, horphans]; exact hskip'.trans h.skips
    case expecting => rw [he, hp]; rfl
    case opened => rw [hp, hopenV]; simpa using hmore
    case undamaged => exact fun _ => hd
    case offsets =>
      rw [hp, Option.toList_none, List.append_nil]
      exact (hsub.map _).trans hoffsets'
    case decoded =>
      intro r hr
      rw [hp, Option.toList_none, List.append_nil] at hr
      exact hdecoded' r (hsub.subset hr)
    case owned => intro r hr; rw [hp] at hr; cases hr

/-- **One record of pass two** keeps the invariant, and the step does not fault. -/
theorem step_inv (done : List RecordView) (v : RecordView) (s : PassTwo)
    (h : ChainInv sites generation undecodable skipped done s) :
    ∃ s', PassTwo.step sites generation s v = .ok s' ∧
      ChainInv sites generation undecodable skipped (done ++ [v]) s' := by
  unfold PassTwo.step
  cases hpending : s.pending with
  | none =>
    -- no chain is open
    have hexp : s.expectingContinuation = false := by rw [h.expecting, hpending]; rfl
    have hclosed : chainOpen sites done = false := by rw [← h.opened, hpending]; rfl
    have hcount := h.count
    have hoffsets := h.offsets
    have hdecoded := h.decoded
    rw [hpending, Option.toList_none, List.append_nil] at hoffsets hdecoded
    rw [hpending, Option.toList_none, List.length_nil, Nat.add_zero] at hcount
    rw [if_neg (by rw [hexp]; decide)]
    refine handleRecord_inv v hcount ?_ ?_ hpending (h.undamaged hpending) hexp hoffsets hdecoded
    · rw [orphans_concat, hclosed, h.skips]
      simp [Nat.add_assoc]
    · rw [chainOpen_concat, hclosed]
  | some rec =>
    have hexp : s.expectingContinuation = true := by rw [h.expecting, hpending]; rfl
    have hopenDone : chainOpen sites done = true := by rw [← h.opened, hpending]; rfl
    rw [if_pos hexp]
    by_cases hcont : v.head.kind ≠ .continuation
    · -- the chain is cut by another record, which is then handled like any other
      rw [if_pos hcont]
      obtain ⟨hp, hd, he, hs, hc, hsub⟩ := finalizePending_facts s.damage
        (by intro hnone; change s.pending = none at hnone; rw [hpending] at hnone; cases hnone)
        h.expecting
      refine handleRecord_inv v (hc.trans h.count) ?_ ?_ hp hd he
        ((hsub.map _).trans h.offsets) (fun r hr => h.decoded r (hsub.subset hr))
      · rw [hs, orphans_concat, if_neg hcont, if_neg (fun hboth => hcont hboth.1)]
        exact h.skips
      · rw [chainOpen_concat]
        simp [chainStep, hcont]
    · rw [if_neg hcont]
      exact consumeContinuation_inv v h hpending (by simpa using hcont)

/-- The end of the stream settles a chain that is still open. -/
theorem finish_facts (h : ChainInv sites generation undecodable skipped done s) :
    s.finish.result.length + s.finish.undecodable = undecodable + done.countP isMessage ∧
      s.finish.result.Sublist (s.result ++ s.pending.toList) := by
  have hcount := h.count
  unfold PassTwo.finish
  cases hpending : s.pending with
  | none =>
    obtain ⟨-, -, -, -, hc, hsub⟩ := finalizePending_facts s h.undamaged h.expecting
    rw [hpending] at hc hsub hcount
    exact ⟨hc.trans hcount, hsub⟩
  | some rec =>
    obtain ⟨-, -, -, -, hc, hsub⟩ := finalizePending_facts s.damage
      (by intro hnone; change s.pending = none at hnone; rw [hpending] at hnone; cases hnone)
      h.expecting
    have hsame : s.damage.pending = s.pending := rfl
    rw [hsame, hpending] at hc hsub
    rw [hpending] at hcount
    exact ⟨hc.trans hcount, hsub⟩

/-- The returned records come in the order of their Messages. -/
theorem finish_sorted (h : ChainInv sites generation undecodable skipped done s)
    (hpair : done.Pairwise fun a b => a.recordOffset + 8 + a.payload.length ≤ b.recordOffset) :
    s.finish.result.Pairwise fun a b => a.recordOffset < b.recordOffset := by
  obtain ⟨-, hsub⟩ := finish_facts h
  have hoffsets := (hsub.map DecodedRecord.recordOffset).trans h.offsets
  have hsorted : (done.map RecordView.recordOffset).Pairwise (· < ·) :=
    List.pairwise_map.mpr (hpair.imp fun {a b} hab => by omega)
  exact List.pairwise_map.mp (hsorted.sublist (hoffsets.trans (List.filter_sublist.map _)))

/-- A Message outside any chain. -/
theorem handleRecord_message {s : PassTwo} {v : RecordView} (h : v.head.kind = .message) :
    PassTwo.handleRecord sites generation s v =
      match message sites generation v with
      | none => .ok { s with undecodable := s.undecodable + 1 }
      | some rec =>
        if PassTwo.continued v then
          .ok { s with
            pending := some rec
            pendingOwned := List.replicate rec.args.length none
            expectingContinuation := true
            damaged := false }
        else .ok { s with result := s.result ++ [rec] } := by
  unfold PassTwo.handleRecord
  rw [if_neg (by rw [h]; decide), if_neg (not_not_intro h), decodeMessage_eq]
  simp only [ok_bind]
  cases message sites generation v <;> rfl

theorem finish_skipped (s : PassTwo) : s.finish.skipped = s.skipped := by
  unfold PassTwo.finish PassTwo.finalizePending
  cases hpending : s.pending with
  | none => simp
  | some rec => simp [PassTwo.damage, hpending]

end PassTwo

/-- Orphans are the same under tables with the same lookups. -/
theorem orphans_congr {sites sites' : List DecodedSite}
    (h : ∀ id, siteFor sites id = siteFor sites' id) {isOpen : Bool}
    {records : List RecordView} :
    orphans sites isOpen records = orphans sites' isOpen records := by
  have hstep : chainStep sites = chainStep sites' := by
    funext isOpen v
    unfold chainStep
    rw [message_congr 0 v h]
  induction records generalizing isOpen with
  | nil => rfl
  | cons v vs ih => rw [orphans, orphans, hstep, ih]

/-! ### The whole call -/

/-- Before the second pass, the counters being those of the first. -/
def PassTwo.start (d : Decoder) : PassTwo :=
  ⟨[], none, [], false, false, d.undecodable, d.skipped⟩

/-- The two passes of a fresh decoder, with what holds after each. -/
theorem decodeAll_run (r : SegmentReader) :
    ∃ v d s, visit r = .ok v ∧
      v.records.Pairwise (fun a b => a.recordOffset + 8 + a.payload.length ≤ b.recordOffset) ∧
      decodeAll Decoder.fresh r = .ok (s.finish.result,
        { d with undecodable := s.finish.undecodable, skipped := s.finish.skipped }) ∧
      v.records.foldlM (PassTwo.step d.sites r.header.generation) (PassTwo.start d) = .ok s ∧
      PassOneInv v.records d ∧
      ChainInv d.sites r.header.generation d.undecodable d.skipped v.records s := by
  obtain ⟨steps, -, hvisit⟩ := r.visit_eq_walk
  have hpair := walk_pairwise r.geometry r.image.mem r.image.size r.header.headerBytes.toNat 0
  generalize hv : (⟨_, _, steps, (r.geometry.walk r.image.mem r.image.size
    r.header.headerBytes.toNat 0).slots⟩ : Visit) = v at hvisit
  have hrecords : v.records =
      (r.geometry.walk r.image.mem r.image.size r.header.headerBytes.toNat 0).records := by
    rw [← hv]
    rfl
  rw [← hrecords] at hpair
  -- pass one
  obtain ⟨d, hone, hinv₁⟩ := foldlM_ok (f := passOne) (motive := PassOneInv)
    (b := Decoder.fresh) v.records ⟨rfl, rfl, fun id => rfl⟩ passOne_step
  -- pass two, under the table pass one has left
  obtain ⟨s, htwo, hinv₂⟩ := foldlM_ok (f := PassTwo.step d.sites r.header.generation)
    (motive := ChainInv d.sites r.header.generation d.undecodable d.skipped)
    (b := PassTwo.start d) v.records
    ⟨by simp [PassTwo.start], rfl, rfl, rfl, fun _ => rfl, by simp [PassTwo.start],
      by simp [PassTwo.start], by simp [PassTwo.start]⟩ step_inv
  refine ⟨v, d, s, hvisit, hpair, ?_, htwo, hinv₁, hinv₂⟩
  unfold decodeAll
  rw [hvisit]
  simp only [ok_bind]
  rw [hone]
  simp only [ok_bind]
  change (v.records.foldlM _ (PassTwo.start d) >>= _) = _
  rw [htwo]
  rfl

/-- What is decoded carries the generation of its segment. -/
theorem decodeAll_generation {r : SegmentReader} {recs : List DecodedRecord} {d : Decoder}
    (h : decodeAll Decoder.fresh r = .ok (recs, d)) :
    ∀ rec ∈ recs, rec.segmentGeneration = r.header.generation := by
  intro rec hrec
  obtain ⟨v, d', s, -, -, hdecode, -, -, hinv⟩ := decodeAll_run r
  obtain ⟨rfl, -⟩ := Prod.mk.inj (Except.ok.inj (h.symm.trans hdecode))
  obtain ⟨m, -, -, base, hbase, hext⟩ := hinv.decoded rec ((finish_facts hinv).2.subset hrec)
  have hgeneration := congrArg DecodedRecord.segmentGeneration hext.rest
  refine hgeneration.trans ?_
  -- a Message is decoded under the generation of the pass
  unfold message at hbase
  split at hbase
  · split at hbase
    · cases hbase
    · obtain ⟨args, -, rfl⟩ := Option.map_eq_some_iff.mp hbase
      rfl
  · cases hbase

/-- **Typed-layer accounting.** On every segment that opens, decoding with a fresh
decoder does not fault, and:

* the returned records and the undecodable ones are together the Messages and the
  malformed definitions;
* the skipped records are the other kinds and the orphaned Continuations;
* returned records have strictly increasing offsets, each that of one Message, decoded
  under the first well-formed definition of its site id, its string arguments extended
  by what followed. -/
theorem decodeAll_accounts (image : Image) (r : SegmentReader) (_h : openImage image = .ok r) :
    ∃ v recs d, visit r = .ok v ∧ decodeAll Decoder.fresh r = .ok (recs, d) ∧
      recs.length + d.undecodable = v.records.countP isMessage
        + v.records.countP malformedSite + v.records.countP malformedSubsystem ∧
      d.skipped = v.records.countP isOther
        + orphans (definitions v.records) false v.records ∧
      recs.Pairwise (fun a b => a.recordOffset < b.recordOffset) ∧
      ∀ rec ∈ recs, ∃ m ∈ v.records, m.head.kind = .message ∧
        rec.recordOffset = m.recordOffset ∧
        siteFor (definitions v.records) (messageFixed m.payload).siteId = some rec.site ∧
        ∃ args, argsAt m.payload rec.site.argTypes sizeofMessagePayload = some args ∧
          rec.args.length = args.length ∧
          ∀ (idx : Nat) a, args[idx]? = some a →
            ∃ b, rec.args[idx]? = some b ∧ ArgExtends a b := by
  obtain ⟨v, d, s, hvisit, hpair, hdecode, -, hinv₁, hinv₂⟩ := decodeAll_run r
  obtain ⟨hcount, hsub⟩ := finish_facts hinv₂
  refine ⟨v, s.finish.result,
    { d with undecodable := s.finish.undecodable, skipped := s.finish.skipped }, hvisit,
    hdecode, ?_, ?_, ?_, ?_⟩
  · simp only
    rw [hcount, hinv₁.undecodable]
    omega
  · simp only
    rw [finish_skipped, hinv₂.skips, hinv₁.skipped, orphans_congr hinv₁.sites]
  · exact finish_sorted hinv₂ hpair
  · intro rec hrec
    obtain ⟨m, hm, hkind, base, hbase, hext⟩ := hinv₂.decoded rec (hsub.subset hrec)
    obtain ⟨hsite, hargs, hoffset⟩ := message_some hbase
    refine ⟨m, hm, hkind, ?_, ?_, base.args, ?_, hext.length, hext.args⟩
    · rw [hext.rest]
      exact hoffset
    · rw [← hinv₁.sites, hsite, hext.rest]
    · rw [hext.rest]
      exact hargs

theorem decodeAll_accounts_overhang :
    ∃ v recs d, visit overhangReader = .ok v ∧
      decodeAll Decoder.fresh overhangReader = .ok (recs, d) ∧
      recs.length + d.undecodable = v.records.countP isMessage
        + v.records.countP malformedSite + v.records.countP malformedSubsystem ∧
      d.skipped = v.records.countP isOther
        + orphans (definitions v.records) false v.records ∧
      recs.Pairwise (fun a b => a.recordOffset < b.recordOffset) ∧
      ∀ rec ∈ recs, ∃ m ∈ v.records, m.head.kind = .message ∧
        rec.recordOffset = m.recordOffset ∧
        siteFor (definitions v.records) (messageFixed m.payload).siteId = some rec.site ∧
        ∃ args, argsAt m.payload rec.site.argTypes sizeofMessagePayload = some args ∧
          rec.args.length = args.length ∧
          ∀ (idx : Nat) a, args[idx]? = some a →
            ∃ b, rec.args[idx]? = some b ∧ ArgExtends a b :=
  decodeAll_accounts overhangImage overhangReader openImage_overhang

end Sub0Log.Reader
