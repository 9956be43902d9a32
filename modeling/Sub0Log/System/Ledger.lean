import Sub0Log.System.Log

/-!
# Every emit is decoded or counted

The log of a state, decoded. `decode_log` is the round trip at one moment of a run: the
decoder returns the Messages of the log, one record each (`Delivers`), with both of its
counters at zero, because a Message is published only behind its site's definition.

Two theorems about runs rest on it:

* **`producer_ledger`** — when all threads have returned, the records and the dropped
  emits are together the emits, and each thread's records are its emits in order;
* **`crash_consistency`** — at any moment of a run the records are the Messages published
  by then, and what was decodable stays decodable.
-/

open Bytes Interleaving

namespace Sub0Log.System

open Wire Reader Producer

variable {τ : Type}

/-! ### Sites -/

/-- What a decoder makes of the definition of the site at `id`. -/
def siteOf (lg : Logger τ) (id : UInt64) : DecodedSite :=
  let d := (lg.sites id).definition id
  shownSite d (d.lengths lg.segment.capacity).1 (d.lengths lg.segment.capacity).2.1

section Sites

variable {S : Setting τ} {ps : List Shown}

/-- A site definition among publications is that of the Logger's site. -/
theorem siteFor_published (hone : S.OneDefinition) (h : ∀ p ∈ ps, S.Expected p.written)
    {id : UInt64} {site : DecodedSite}
    (hsite : siteFor (ps.filterMap (Shown.site? S.lg.segment.capacity)) id = some site) :
    site = siteOf S.lg id := by
  have hid : site.siteId = id := by
    have hfound := List.find?_some hsite
    exact eq_of_beq hfound
  obtain ⟨p, hp, hdefines⟩ := List.mem_filterMap.mp (List.mem_of_find?_eq_some hsite)
  have hexpected := h p hp
  unfold Shown.site? at hdefines
  cases hwritten : p.written with
  | message e => rw [hwritten] at hdefines; cases hdefines
  | subsystem id name => rw [hwritten] at hdefines; cases hdefines
  | definition d =>
    rw [hwritten] at hdefines hexpected
    have hd : d = (S.lg.sites d.siteId).definition d.siteId := hexpected hone
    obtain rfl := Option.some.inj hdefines
    obtain rfl : d.siteId = id := hid
    unfold siteOf
    rw [← hd]

/-- A site is known when its definition is there. -/
theorem siteFor_of_definition (hone : S.OneDefinition) (h : ∀ p ∈ ps, S.Expected p.written)
    {p : Shown} {d : SiteDefinition} (hp : p ∈ ps) (hd : p.written = .definition d) :
    siteFor (ps.filterMap (Shown.site? S.lg.segment.capacity)) d.siteId =
      some (siteOf S.lg d.siteId) := by
  have hmem : shownSite d (d.lengths S.lg.segment.capacity).1
      (d.lengths S.lg.segment.capacity).2.1 ∈
        ps.filterMap (Shown.site? S.lg.segment.capacity) := by
    refine List.mem_filterMap.mpr ⟨p, hp, ?_⟩
    unfold Shown.site?
    rw [hd]
  have hsome : (siteFor (ps.filterMap (Shown.site? S.lg.segment.capacity)) d.siteId).isSome =
      true := by
    unfold siteFor
    rw [List.find?_isSome]
    exact ⟨_, hmem, beq_self_eq_true d.siteId⟩
  obtain ⟨site, hsite⟩ := Option.isSome_iff_exists.mp hsome
  rw [hsite, siteFor_published hone h hsite]

/-- Publications as the producer makes them are what the decoder needs. -/
theorem decodable_of_expected (hone : S.OneDefinition) (h : ∀ p ∈ ps, S.Expected p.written)
    {p : Shown} (hp : p ∈ ps) (hwf : ∀ e ∈ p.entries S.lg.segment.capacity, e.Wf) :
    p.Decodable S.lg.segment.capacity
      (ps.filterMap (Shown.site? S.lg.segment.capacity)) := by
  have htyped : ∀ e, p.written = .message e →
      e.args.map Arg.typeCode = (S.lg.sites e.siteId).argTypes := by
    intro e he
    have hexpected := h p hp
    rwa [he] at hexpected
  refine ⟨hwf, fun e he => ?_, fun e site he hsite => ?_⟩
  · have hle := (S.lg.sites e.siteId).argTypes_le
    rwa [← htyped e he, List.length_map] at hle
  · -- the type codes of the pack, to bytes and back
    rw [siteFor_published hone h hsite]
    show ((S.lg.sites e.siteId).argTypes.map TypeCode.toByte).map TypeCode.ofByte = _
    rw [← htyped e he]
    refine map_ofByte_toByte fun code hcode => ?_
    obtain ⟨a, -, rfl⟩ := List.mem_map.mp hcode
    exact typeCode_named a

end Sites

/-! ### Messages and records -/

/-- The Message of a publication, if it is one. -/
def messageOf : Written → Option Emission
  | .message e => some e
  | .definition _ | .subsystem _ _ => none

/-- The Messages of a log. -/
def messages (ps : List (τ × Shown)) : List (τ × Emission) :=
  ps.filterMap fun x => (messageOf x.2.written).map (Prod.mk x.1)

/-- `rec` is the Message `e`, decoded: its site, time and correlation, and its arguments, a
Bytes argument up to the ceiling when the chain fits an empty chunk and up to the inline cap
otherwise. -/
structure Delivers (lg : Logger τ) (e : Emission) (rec : DecodedRecord) : Prop where
  site : rec.site = siteOf lg e.siteId
  monoNs : rec.monoNs = e.monoNs
  correlationId : rec.correlationId = e.correlationId
  truncated : rec.truncated = e.anyTruncated lg.segment.capacity
  args : rec.args = e.args.map
    (shownArg (if e.chained lg.segment.capacity then cArgCeiling else cInlineBytesCap))

/-- `Delivers`, and the record names the thread. -/
def DeliversFrom (lg : Logger τ) (x : τ × Emission) (rec : DecodedRecord) : Prop :=
  Delivers lg x.2 rec ∧ rec.ownerThread = lg.threadId x.1

/-- The Message of an outcome, if it was written. -/
def writtenOf : Outcome → Option Emission
  | .written e => some e
  | .dropped _ => none

/-- The emit of an outcome, if it was dropped. -/
def droppedOf : Outcome → Option Emit
  | .written _ => none
  | .dropped e => some e

/-- Choosing Messages and choosing a thread are independent. -/
theorem messages_filter [DecidableEq τ] (ps : List (τ × Shown)) (t : τ) :
    ((messages ps).filter fun x => x.1 = t).map Prod.snd =
      ((ps.filter fun x => x.1 = t).map fun x => x.2.written).filterMap messageOf := by
  unfold messages
  induction ps with
  | nil => rfl
  | cons x ps ih =>
    by_cases heq : x.1 = t
    · rw [List.filter_cons_of_pos (by simpa using heq), List.map_cons]
      cases hx : messageOf x.2.written with
      | none => rw [List.filterMap_cons_none (by rw [hx]; rfl), List.filterMap_cons_none hx, ih]
      | some e =>
        rw [List.filterMap_cons_some (by rw [hx]; rfl), List.filterMap_cons_some hx,
          List.filter_cons_of_pos (by simpa using heq), List.map_cons, ih]
    · rw [List.filter_cons_of_neg (by simpa using heq), ← ih]
      cases hx : messageOf x.2.written with
      | none => rw [List.filterMap_cons_none (by rw [hx]; rfl)]
      | some e =>
        rw [List.filterMap_cons_some (by rw [hx]; rfl),
          List.filter_cons_of_neg (by simpa using heq)]

/-- Two choices from one list that choose together. -/
theorem forall₂_filterMap {α β γ : Type} {R : β → γ → Prop} {f : α → Option β}
    {g : α → Option γ} {l : List α}
    (h : ∀ a ∈ l, (f a = none ∧ g a = none) ∨ ∃ b c, f a = some b ∧ g a = some c ∧ R b c) :
    List.Forall₂ R (l.filterMap f) (l.filterMap g) := by
  induction l with
  | nil => exact .nil
  | cons a l ih =>
    have hrest := ih fun b hb => h b (List.mem_cons_of_mem _ hb)
    rcases h a List.mem_cons_self with ⟨hf, hg⟩ | ⟨b, c, hf, hg, hR⟩
    · rw [List.filterMap_cons_none hf, List.filterMap_cons_none hg]
      exact hrest
    · rw [List.filterMap_cons_some hf, List.filterMap_cons_some hg]
      exact .cons hR hrest

/-- A record of a stream keeps the address of its publication. -/
theorem record?_offset {capacity : Nat} {generation : UInt64} {sites : List DecodedSite}
    {p : Shown} {rec : DecodedRecord} (h : p.record? capacity generation sites = some rec) :
    rec.recordOffset = p.address := by
  unfold Shown.record? at h
  cases hp : p.written with
  | message e =>
    rw [hp] at h
    obtain ⟨site, -, rfl⟩ := Option.map_eq_some_iff.mp h
    rfl
  | definition d => rw [hp] at h; cases h
  | subsystem id name => rw [hp] at h; cases h

/-- What stands on the right of a pairing has a partner on the left. -/
theorem mem_of_forall₂ {α β : Type} {R : α → β → Prop} {l : List α} {l' : List β}
    (h : List.Forall₂ R l l') {b : β} (hb : b ∈ l') : ∃ a ∈ l, R a b := by
  induction h with
  | nil => cases hb
  | cons hR _ ih =>
    rcases List.mem_cons.mp hb with rfl | htail
    · exact ⟨_, List.mem_cons_self, hR⟩
    · obtain ⟨a, ha, hR'⟩ := ih htail
      exact ⟨a, List.mem_cons_of_mem _ ha, hR'⟩

section Decoding

variable [DecidableEq τ] {S : Setting τ} {s : State τ}

/-- Every Message that was published is that of an emit of its thread. -/
theorem emit_of_committed (h : S.Inv s) {t : τ} {a : Nat} {e : Emission}
    (hcommitted : Event.committed t a (.message e) ∈ s.trace) :
    ∃ emit ∈ S.emits t, S.lg.OutcomeOf emit (.written e) := by
  have hhist : Event.committed t a (.message e) ∈ s.hist t :=
    State.mem_hist.mpr ⟨hcommitted, rfl⟩
  have houtcome : Outcome.written e ∈ outcomes (s.hist t) :=
    List.mem_filterMap.mpr ⟨_, hhist, rfl⟩
  obtain ⟨done, hdone, hfollows⟩ := h.counting.follows t
  obtain ⟨emit, hemit, hof⟩ := mem_of_forall₂ hfollows houtcome
  exact ⟨emit, hdone.subset hemit, hof⟩

/-- The Messages thread `t` has published. -/
def sent (s : State τ) (t : τ) : List Emission := (outcomes (s.hist t)).filterMap writtenOf

/-- The Messages of one thread in the log are those it published, in its order. -/
theorem messages_thread (h : S.Layout s) (t : τ) :
    ((messages (log S.lg s)).filter fun x => x.1 = t).map Prod.snd = sent s t := by
  rw [messages_filter, log_thread h, List.filterMap_filterMap]
  unfold sent outcomes
  rw [List.filterMap_filterMap]
  refine congrArg (fun f => (s.hist t).filterMap f) (funext fun e => ?_)
  cases e with
  | committed t' a w => cases w <;> rfl
  | dropped t' emit => cases emit <;> rfl
  | claimed | truncated => rfl

/-- Records of the log fit their head words. -/
theorem log_wf (h : S.Layout s) {x : τ × Shown} (hx : x ∈ log S.lg s) :
    ∀ e ∈ x.2.entries S.lg.segment.capacity, e.Wf := by
  obtain ⟨t, p⟩ := x
  obtain ⟨hclaim, hmem⟩ := (mem_log h).mp hx
  obtain ⟨-, -, -, -, hentries⟩ := mem_shownFrom hmem
  exact fun e he => (h.shows t _ hclaim).wf e (hentries e he)

theorem log_expected (h : S.Inv s) {p : Shown} (hp : p ∈ (log S.lg s).map Prod.snd) :
    S.Expected p.written := by
  obtain ⟨⟨t, q⟩, hq, rfl⟩ := List.mem_map.mp hp
  obtain ⟨a, ha⟩ := committed_of_log h.layout hq
  exact h.naming.expected t a _ ha

/-- **A decoder returns the Messages of the log**, one record each, and counts nothing. -/
theorem decode_log (h : S.Inv s) (hone : S.OneDefinition) :
    ∃ r recs d, openImage (image S.lg.segment s.mapped) = .ok r ∧
      decodeAll Decoder.fresh r = .ok (recs, d) ∧ d.undecodable = 0 ∧ d.skipped = 0 ∧
      List.Forall₂ (DeliversFrom S.lg) (messages (log S.lg s)) recs ∧
      recs.Pairwise fun a b => a.recordOffset < b.recordOffset := by
  obtain ⟨r, v, hopen, -, hvisit, hrecords⟩ := visit_log h.layout
  have hexpected : ∀ p ∈ (log S.lg s).map Prod.snd, S.Expected p.written :=
    fun p hp => log_expected h hp
  have hdecodable : ∀ p ∈ (log S.lg s).map Prod.snd, p.Decodable S.lg.segment.capacity
      (((log S.lg s).map Prod.snd).filterMap (Shown.site? S.lg.segment.capacity)) := by
    intro p hp
    obtain ⟨x, hx, rfl⟩ := List.mem_map.mp hp
    exact decodable_of_expected hone hexpected hp (log_wf h.layout hx)
  obtain ⟨d, hdecode, hundecodable, hskipped⟩ := decodeAll_shown hvisit hrecords hdecodable
  generalize hsites : ((log S.lg s).map Prod.snd).filterMap
    (Shown.site? S.lg.segment.capacity) = sites at hdecode hundecodable hskipped
  -- every Message of the log finds its definition in it
  have hknown : ∀ x ∈ log S.lg s, ∀ e, x.2.written = .message e →
      siteFor sites e.siteId = some (siteOf S.lg e.siteId) := by
    intro x hx e he
    obtain ⟨a, ha⟩ := committed_of_log h.layout hx
    rw [he] at ha
    obtain ⟨t', a', hdefined⟩ := h.naming.defined _ a e ha
    obtain ⟨p, hp, hd⟩ := log_of_committed h.layout hdefined
    rw [← hsites]
    exact siteFor_of_definition hone hexpected (List.mem_map_of_mem (f := Prod.snd) hp) hd
  have hpass : ∀ x ∈ log S.lg s, x.2.undefined sites = false ∧
      x.2.orphaned S.lg.segment.capacity sites = 0 := by
    intro x hx
    unfold Shown.undefined Shown.orphaned
    cases he : x.2.written with
    | message e => simp [hknown x hx e he]
    | definition d => exact ⟨rfl, rfl⟩
    | subsystem id name => exact ⟨rfl, rfl⟩
  refine ⟨r, _, d, hopen, hdecode, ?_, ?_, ?_, ?_⟩
  · rw [hundecodable, List.countP_map]
    refine List.countP_eq_zero.mpr fun x hx => ?_
    rw [Function.comp, (hpass x hx).1]
    exact Bool.false_ne_true
  · rw [hskipped, List.map_map]
    refine List.sum_eq_zero fun n hn => ?_
    obtain ⟨x, hx, rfl⟩ := List.mem_map.mp hn
    exact (hpass x hx).2
  · rw [List.filterMap_map]
    refine forall₂_filterMap fun x hx => ?_
    cases he : x.2.written with
    | message e =>
      have hrecord : x.2.record? S.lg.segment.capacity r.header.generation sites =
          some (x.2.record S.lg.segment.capacity r.header.generation e
            (siteOf S.lg e.siteId)) := by
        unfold Shown.record?
        rw [he]
        simp only [hknown x hx e he, Option.map_some]
      refine Or.inr ⟨_, _, rfl, hrecord, ⟨rfl, rfl, rfl, rfl, rfl⟩, ?_⟩
      exact log_owner h.layout hx
    | definition d => exact Or.inl ⟨rfl, by show Shown.record? _ _ _ _ = _; unfold Shown.record?; rw [he]⟩
    | subsystem id name =>
      exact Or.inl ⟨rfl, by show Shown.record? _ _ _ _ = _; unfold Shown.record?; rw [he]⟩
  · rw [List.filterMap_map]
    refine List.pairwise_filterMap.mpr ((log_pairwise h.layout).imp ?_)
    intro x y hlt rec hrec rec' hrec'
    rw [record?_offset hrec, record?_offset hrec']
    exact hlt

end Decoding

/-! ### Runs -/

/-- Every list is what its groups are together. -/
theorem sum_length_filter {α : Type} [Fintype τ] [DecidableEq τ] (f : α → τ) (l : List α) :
    ∑ t, (l.filter fun a => f a = t).length = l.length := by
  induction l with
  | nil => simp
  | cons a l ih =>
    have hone : ∀ t, ((a :: l).filter fun a => f a = t).length =
        (if f a = t then 1 else 0) + (l.filter fun a => f a = t).length := by
      intro t
      by_cases heq : f a = t
      · rw [List.filter_cons_of_pos (by simpa using heq), List.length_cons, if_pos heq,
          Nat.add_comm]
      · rw [List.filter_cons_of_neg (by simpa using heq), if_neg heq, Nat.zero_add]
    rw [Finset.sum_congr rfl fun t _ => hone t, Finset.sum_add_distrib, ih,
      Finset.sum_ite_eq Finset.univ (f a), if_pos (Finset.mem_univ _), List.length_cons,
      Nat.add_comm]

/-- An outcome is written or dropped. -/
theorem length_outcomes (os : List Outcome) :
    (os.filterMap writtenOf).length + (os.filterMap droppedOf).length = os.length := by
  induction os with
  | nil => rfl
  | cons o os ih =>
    cases o with
    | written e =>
      show (os.filterMap writtenOf).length + 1 + (os.filterMap droppedOf).length = os.length + 1
      rw [← ih, Nat.add_right_comm]
    | dropped e =>
      show (os.filterMap writtenOf).length + ((os.filterMap droppedOf).length + 1) = os.length + 1
      rw [← ih, Nat.add_assoc]

section Runs

variable [DecidableEq τ] {S : Setting τ} {s : State τ}

/-- When only emits are made, the drops of a thread are emits of it. -/
theorem drops_of_thread (h : S.Counting s) (honly : S.OnlyEmits) (t : τ) :
    ((s.trace.filter Event.isDrop).filter fun e => e.thread = t).length =
      ((outcomes (s.hist t)).filterMap droppedOf).length := by
  have hnoted := h.noted honly
  rw [List.filter_comm]
  change ((s.hist t).filter Event.isDrop).length = _
  have hmem : ∀ t', Event.dropped t' none ∉ s.hist t := fun t' hin =>
    hnoted t' (State.mem_hist.mp hin).1
  generalize s.hist t = l at hmem
  induction l with
  | nil => rfl
  | cons e l ih =>
    have hl := ih fun t' hin => hmem t' (List.mem_cons_of_mem _ hin)
    unfold outcomes at hl ⊢
    cases e with
    | dropped t' emit =>
      cases emit with
      | none => exact absurd List.mem_cons_self (hmem t')
      | some e =>
        show (l.filter Event.isDrop).length + 1 =
          ((l.filterMap Event.outcome?).filterMap droppedOf).length + 1
        rw [hl]
    | committed t' a w =>
      rw [List.filter_cons_of_neg Bool.false_ne_true, hl]
      cases w <;> rfl
    | claimed | truncated => rw [List.filter_cons_of_neg Bool.false_ne_true, hl]; rfl

omit [DecidableEq τ] in
/-- Emits alone define every site as the Logger has it. -/
theorem oneDefinition_of_onlyEmits (h : S.OnlyEmits) : S.OneDefinition :=
  fun t _ hd => absurd rfl (h t _ hd)

/-- What was published stays published. -/
theorem sent_of_trace {s' : State τ} (h : s.trace <+: s'.trace) (t : τ) : sent s t <+: sent s' t :=
  List.IsPrefix.filterMap _ (List.IsPrefix.filterMap _ (List.IsPrefix.filter _ h))

/-- No run takes back what happened. -/
theorem trace_of_reachable {lg : Logger τ} {p p' : Pool Op.Answer τ (State τ) Unit}
    (h : Reachable (sem lg) p p') : p.shared.trace <+: p'.shared.trace := by
  induction h with
  | refl => exact List.prefix_rfl
  | tail _ hstep ih =>
    obtain ⟨t, hby⟩ := hstep
    cases hby with
    | op hprog hsem => exact ih.trans (Setting.trace_grows hsem)

end Runs

/-- The ledger of threads that have all done their calls, those being emits. -/
theorem ledger_of_returned [Fintype τ] [DecidableEq τ] {S : Setting τ} {s : State τ}
    (hinv : S.Inv s) (honly : S.OnlyEmits)
    (hreturned : ∀ t, ∃ h, S.Did t h (S.calls t) ∧ S.Idle t h s)
    (hwrap : s.trace.countP Event.isDrop < S.lg.counterWrap) :
    ∃ r recs d log, ∃ fate : τ → List Outcome,
      openImage (image S.lg.segment s.mapped) = .ok r ∧
      decodeAll Decoder.fresh r = .ok (recs, d) ∧
      recs.length + s.dropped = ∑ t, (S.calls t).length ∧
      d.undecodable = 0 ∧ d.skipped = 0 ∧
      (∀ t, List.Forall₂ S.lg.OutcomeOf ((S.calls t).filterMap Call.emit?) (fate t)) ∧
      s.dropped = ∑ t, ((fate t).filterMap droppedOf).length ∧
      List.Forall₂ (DeliversFrom S.lg) log recs ∧
      (∀ t, (log.filter fun x => x.1 = t).map Prod.snd = (fate t).filterMap writtenOf) ∧
      recs.Pairwise fun a b => a.recordOffset < b.recordOffset := by
  obtain ⟨r, recs, d, hopen, hdecode, hundecodable, hskipped, hdelivers, hsorted⟩ :=
    decode_log hinv (oneDefinition_of_onlyEmits honly)
  have hfate : ∀ t, List.Forall₂ S.lg.OutcomeOf ((S.calls t).filterMap Call.emit?)
      (outcomes (s.hist t)) := by
    intro t
    obtain ⟨h, hdid, hidle⟩ := hreturned t
    rw [hidle.hist]
    exact hdid
  have hdropped : s.dropped = ∑ t, ((outcomes (s.hist t)).filterMap droppedOf).length := by
    rw [hinv.counting.dropped, Nat.mod_eq_of_lt hwrap, List.countP_eq_length_filter,
      ← sum_length_filter Event.thread]
    exact Finset.sum_congr rfl fun t _ => drops_of_thread hinv.counting honly t
  have hthread := messages_thread hinv.layout
  -- thread by thread, what was written and what was dropped are the calls
  have hcalls : ∀ t, (sent s t).length +
      ((outcomes (s.hist t)).filterMap droppedOf).length = (S.calls t).length := by
    intro t
    have hemits : ((S.calls t).filterMap Call.emit?).length = (S.calls t).length := by
      refine (List.filterMap_length_eq_length).mpr fun c hc => ?_
      exact Option.isSome_iff_ne_none.mpr (honly t c hc)
    unfold sent
    rw [length_outcomes, ← (hfate t).length_eq, hemits]
  have hrecords : recs.length = ∑ t, (sent s t).length := by
    rw [← hdelivers.length_eq, ← sum_length_filter Prod.fst]
    refine Finset.sum_congr rfl fun t _ => ?_
    rw [← hthread t, List.length_map]
  refine ⟨r, recs, d, _, fun t => outcomes (s.hist t), hopen, hdecode, ?_, hundecodable,
    hskipped, hfate, hdropped, hdelivers, hthread, hsorted⟩
  rw [hrecords, hdropped, ← Finset.sum_add_distrib]
  exact Finset.sum_congr rfl fun t _ => hcalls t

/-- Two emits of a plain site. -/
def twoEmits (_ : Unit) : List (Call (smallLogger 3 plainSite)) :=
  [plainEmit 3 0, plainEmit 3 9]

theorem twoEmits_only : ∀ t, ∀ c ∈ twoEmits t, c.emit? ≠ none := by
  intro t c hc
  simp only [twoEmits, List.mem_cons, List.not_mem_nil, or_false] at hc
  rcases hc with rfl | rfl <;> exact Option.some_ne_none _

/-- The run of the two emits, to its end. -/
def twoEmitsRun : Pool Op.Answer Unit (State Unit) Unit :=
  runThread (smallLogger 3 plainSite) () ((smallLaunch three_chunks plainSite).pool twoEmits)

theorem twoEmitsRun_reachable : Reachable (sem (smallLogger 3 plainSite))
    ((smallLaunch (by decide) plainSite).pool twoEmits) twoEmitsRun :=
  (runThread_reachable _ () _).reachable

end Sub0Log.System
