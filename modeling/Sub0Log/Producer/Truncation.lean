import Sub0Log.Library.Noting
import Sub0Log.Library.Tally
import Sub0Log.Producer.Effects

/-!
# Head words that say a record was cut

Each writer sets `cFlagTruncated` in the head word of a record it has cut, and has to count it
behind the commit. What matters of its operations is noted (`Op.headNotes`): the head words it
stores, on the split path in two halves, and the counts. Notes are `Paired` when they have a count
for every head word with the flag; notes of one writer behind those of another stay paired
(`Paired.append`).

**`call_accounted`**: every function of the producer leaves paired notes, whatever its operations
answer and wherever it ends. The records about a child are cut and not counted; for them there is
a note of its own, and the writers of such records are behind the producer (`cutChild`).
-/

open Bytes Interleaving

namespace Sub0Log.Producer

open Wire

/-! ### Notes -/

/-- What is noted of an operation. -/
inductive HeadNote
  /-- A head word was stored, as one word or as the one half and then the other. -/
  | word (word : Nat)
  | low (half : Nat)
  | high (half : Nat)
  /-- `countTruncation`. -/
  | counted
  /-- The head word that was stored is that of a record about a child, which was cut. -/
  | cutChild
  deriving DecidableEq

namespace HeadNote

def isCounted : HeadNote → Bool
  | counted => true
  | word _ | low _ | high _ | cutChild => false

def isCutChild : HeadNote → Bool
  | cutChild => true
  | word _ | low _ | high _ | counted => false

end HeadNote

def Op.headNotes : (op : Op) → op.Answer → List HeadNote
  | .store64 _ word _, _ => [.word word]
  | .storeLow32 _ half, _ => [.low half]
  | .storeHigh32 _ half _, _ => [.high half]
  | .countTruncation, _ => [.counted]
  | .loadKey _, _ | .storeKey _ _, _ | .claimChunkIndex, _ | .currentThreadId, _
  | .monotonicNow, _ | .loadCache, _ | .storeCache _, _ | .copyOrder _, _ | .storeByte _ _, _
  | .countDrop _, _ => []

/-- The head words a thread has committed, `low` being the low half it has stored last. -/
def headWords : (low : Nat) → List HeadNote → List Nat
  | _, [] => []
  | low, .word word :: notes => word :: headWords low notes
  | _, .low half :: notes => headWords half notes
  | low, .high half :: notes => (low + half * 2 ^ 32) :: headWords low notes
  | low, .counted :: notes | low, .cutChild :: notes => headWords low notes

/-- The word is that of a committed record, and carries `cFlagTruncated`. -/
def flagged (word : Nat) : Bool :=
  RecordHead.isCommitted word && ((RecordHead.unpack word).flags &&& cFlagTruncated != 0)

theorem flagged_pack {h : RecordHead} (hkind : h.kind.Named) :
    flagged h.pack = (h.flags &&& cFlagTruncated != 0) := by
  unfold flagged
  rw [RecordHead.isCommitted_pack, RecordHead.unpack_pack hkind, Bool.true_and]

/-! ### Paired notes -/

/-- For every head word with the flag there is a count, or the note that the record is a child's:
this is so of these notes alone, whatever half was stored before and whatever is noted next. -/
def Paired (notes : List HeadNote) : Prop := ∀ low, ∃ low', ∀ rest,
  (headWords low (notes ++ rest)).countP flagged =
    notes.countP HeadNote.isCounted + notes.countP HeadNote.isCutChild +
      (headWords low' rest).countP flagged

theorem Paired.nil : Paired [] := fun low => ⟨low, fun _ => (Nat.zero_add _).symm⟩

theorem Paired.append {notes notes' : List HeadNote} (h : Paired notes) (h' : Paired notes') :
    Paired (notes ++ notes') := by
  intro low
  obtain ⟨low₁, hfirst⟩ := h low
  obtain ⟨low₂, hsecond⟩ := h' low₁
  refine ⟨low₂, fun rest => ?_⟩
  calc (headWords low (notes ++ notes' ++ rest)).countP flagged
      = notes.countP HeadNote.isCounted + notes.countP HeadNote.isCutChild +
          (headWords low₁ (notes' ++ rest)).countP flagged := by
        rw [List.append_assoc, hfirst]
    _ = notes.countP HeadNote.isCounted + notes.countP HeadNote.isCutChild +
          (notes'.countP HeadNote.isCounted + notes'.countP HeadNote.isCutChild +
            (headWords low₂ rest).countP flagged) := by rw [hsecond]
    _ = (notes ++ notes').countP HeadNote.isCounted +
          (notes ++ notes').countP HeadNote.isCutChild +
            (headWords low₂ rest).countP flagged := by
        rw [List.countP_append, List.countP_append]
        ring

/-- A whole record of notes. -/
theorem Paired.total {notes : List HeadNote} (h : Paired notes) (low : Nat) :
    (headWords low notes).countP flagged =
      notes.countP HeadNote.isCounted + notes.countP HeadNote.isCutChild := by
  obtain ⟨low', hall⟩ := h low
  have hnone := hall []
  rwa [List.append_nil] at hnone

/-! ### One record -/

/-- What storing a head word notes. -/
def headNotes (split : Bool) (word : Nat) : List HeadNote :=
  if split then [.low (word % 2 ^ 32), .high (word / 2 ^ 32)] else [.word word]

theorem headWords_headNotes (split : Bool) (word low : Nat) : ∃ low', ∀ rest,
    headWords low (headNotes split word ++ rest) = word :: headWords low' rest := by
  cases split with
  | true =>
    refine ⟨word % 2 ^ 32, fun rest => ?_⟩
    have hword : word % 2 ^ 32 + word / 2 ^ 32 * 2 ^ 32 = word := Nat.mod_add_div' word (2 ^ 32)
    exact congrArg (· :: headWords (word % 2 ^ 32) rest) hword
  | false => exact ⟨low, fun rest => rfl⟩

/-- The note behind the head word of a record that was cut. -/
def markIf (mark : HeadNote) (cut : Bool) : List HeadNote := if cut then [mark] else []

/-- **A record whose flag is set exactly when it is marked.** -/
theorem paired_record {split cut : Bool} {mark : HeadNote} (hmark : mark = .counted ∨ mark = .cutChild)
    {h : RecordHead} (hkind : h.kind.Named) (hflag : (h.flags &&& cFlagTruncated != 0) = cut) :
    Paired (headNotes split h.pack ++ markIf mark cut) := by
  intro low
  obtain ⟨low', hhead⟩ := headWords_headNotes split h.pack low
  refine ⟨low', fun rest => ?_⟩
  have hskip : headWords low' (markIf mark cut ++ rest) = headWords low' rest := by
    cases cut with
    | false => rfl
    | true => obtain rfl | rfl := hmark <;> rfl
  have hplain : (headNotes split h.pack).countP HeadNote.isCounted = 0 ∧
      (headNotes split h.pack).countP HeadNote.isCutChild = 0 := by cases split <;> exact ⟨rfl, rfl⟩
  have hmarked : (markIf mark cut).countP HeadNote.isCounted +
      (markIf mark cut).countP HeadNote.isCutChild = cut.toNat := by
    cases cut with
    | false => rfl
    | true => obtain rfl | rfl := hmark <;> rfl
  rw [List.append_assoc, hhead, hskip, List.countP_cons, flagged_pack hkind, hflag,
    List.countP_append, List.countP_append, hplain.1, hplain.2, Nat.zero_add, Nat.zero_add, hmarked,
    Nat.add_comm]
  cases cut <;> rfl

/-- A record that is never cut. -/
theorem paired_whole {split : Bool} {h : RecordHead} (hkind : h.kind.Named)
    (hflag : (h.flags &&& cFlagTruncated != 0) = false) : Paired (headNotes split h.pack) := by
  have hrecord : Paired (headNotes split h.pack ++ markIf .counted false) :=
    paired_record (Or.inl rfl) hkind hflag
  rwa [show markIf .counted false = [] from rfl, List.append_nil] at hrecord

theorem truncated_read (cut : Bool) :
    ((if cut then cFlagTruncated else 0) &&& cFlagTruncated != 0) = cut := by
  cases cut <;> decide

/-! ### The notes of all threads -/

section Threads

variable {τ : Type} [DecidableEq τ]

/-- The head words that were committed, with the thread of each; `lows` are the low halves the
threads have stored last. -/
def headWordsBy : (lows : τ → Nat) → List (τ × HeadNote) → List (τ × Nat)
  | _, [] => []
  | lows, (t, .word word) :: notes => (t, word) :: headWordsBy lows notes
  | lows, (t, .low half) :: notes => headWordsBy (Function.update lows t half) notes
  | lows, (t, .high half) :: notes => (t, lows t + half * 2 ^ 32) :: headWordsBy lows notes
  | lows, (_, .counted) :: notes | lows, (_, .cutChild) :: notes => headWordsBy lows notes

/-- The committed records whose head word carries the flag. -/
def flaggedRecords (notes : List (τ × HeadNote)) : Nat :=
  (headWordsBy (fun _ => 0) notes).countP fun r => flagged r.2

def countedRecords (notes : List (τ × HeadNote)) : Nat := notes.countP fun n => n.2.isCounted

/-- Those among the committed records about children that were cut. -/
def cutChildRecords (notes : List (τ × HeadNote)) : Nat := notes.countP fun n => n.2.isCutChild

omit [DecidableEq τ] in
theorem countedRecords_append (notes : List (τ × HeadNote)) (t : τ) (l : List HeadNote) :
    countedRecords (notes ++ l.map (Prod.mk t)) =
      countedRecords notes + l.countP HeadNote.isCounted := by
  unfold countedRecords
  rw [List.countP_append, List.countP_map]
  rfl

private theorem filter_own {β : Type} (t : τ) (b : β) (l : List (τ × β)) :
    ((t, b) :: l).filter (fun e => e.1 = t) = (t, b) :: l.filter fun e => e.1 = t :=
  List.filter_cons_of_pos (decide_eq_true rfl)

private theorem filter_other {β : Type} {t t' : τ} (h : t' ≠ t) (b : β)
    (l : List (τ × β)) : ((t', b) :: l).filter (fun e => e.1 = t) = l.filter fun e => e.1 = t :=
  List.filter_cons_of_neg fun heq => h (of_decide_eq_true heq)

/-- The words of one thread are made of its own halves. -/
theorem headWordsBy_thread (t : τ) (lows : τ → Nat) (notes : List (τ × HeadNote)) :
    ((headWordsBy lows notes).filter fun r => r.1 = t).map Prod.snd =
      headWords (lows t) (notesOf t notes) := by
  unfold notesOf
  induction notes generalizing lows with
  | nil => rfl
  | cons n notes ih =>
    obtain ⟨t', n⟩ := n
    by_cases ht : t' = t
    · subst ht
      rw [filter_own, List.map_cons]
      cases n with
      | word word =>
        show (((t', word) :: headWordsBy lows notes).filter _).map Prod.snd = _
        rw [filter_own, List.map_cons, ih]
        rfl
      | low half =>
        show ((headWordsBy (Function.update lows t' half) notes).filter _).map Prod.snd = _
        rw [ih, Function.update_self]
        rfl
      | high half =>
        show (((t', lows t' + half * 2 ^ 32) :: headWordsBy lows notes).filter _).map Prod.snd = _
        rw [filter_own, List.map_cons, ih]
        rfl
      | counted | cutChild => exact ih lows
    · rw [filter_other ht]
      cases n with
      | word word =>
        show (((t', word) :: headWordsBy lows notes).filter _).map Prod.snd = _
        rw [filter_other ht, ih]
      | low half =>
        show ((headWordsBy (Function.update lows t' half) notes).filter _).map Prod.snd = _
        rw [ih, Function.update_of_ne (Ne.symm ht)]
      | high half =>
        show (((t', lows t' + half * 2 ^ 32) :: headWordsBy lows notes).filter _).map Prod.snd = _
        rw [filter_other ht, ih]
      | counted | cutChild => exact ih lows

/-- **Thread by thread, so in all.** -/
theorem flaggedRecords_eq {notes : List (τ × HeadNote)} (h : ∀ t, Paired (notesOf t notes)) :
    flaggedRecords notes = countedRecords notes + cutChildRecords notes := by
  have hsum : countedRecords notes + cutChildRecords notes =
      (notes.map fun n => n.2.isCounted.toNat + n.2.isCutChild.toNat).sum := by
    unfold countedRecords cutChildRecords
    rw [Tally.countP_eq_sum, Tally.countP_eq_sum, List.sum_map_add]
  unfold flaggedRecords
  rw [hsum, Tally.countP_eq_sum]
  refine Tally.sum_by_keys Prod.fst Prod.fst _ _ fun t => ?_
  have htotal := (h t).total 0
  rw [← headWordsBy_thread t (fun _ => 0), notesOf, Tally.countP_eq_sum, Tally.countP_eq_sum,
    Tally.countP_eq_sum, List.map_map, List.map_map, List.map_map, ← List.sum_map_add] at htotal
  exact htotal

end Threads

/-! ### Programs -/

/-- The program leaves such notes. -/
abbrev Notes {α : Type} (x : Code α) (Q : α → List HeadNote → Prop) : Prop := x.Does Op.headNotes Q

/-- It leaves paired notes. -/
abbrev Accounted {α : Type} (x : Code α) : Prop := Notes x fun _ => Paired

theorem Op.Plain.headNotes {op : Op} (h : op.Plain) (r : op.Answer) : op.headNotes r = [] := by
  cases op with
  | store64 | storeLow32 | storeHigh32 | countDrop | countTruncation => exact absurd h id
  | _ => rfl

theorem Plain.unnoted {α : Type} {x : Code α} (h : Plain x) : Notes x fun _ l => l = [] :=
  Prog.Only.silent h fun _ hplain r => hplain.headNotes r

theorem accounted_pure {α : Type} (a : α) : Accounted (pure a : Code α) := Paired.nil

theorem Accounted.bind {α β : Type} {x : Code α} {f : α → Code β} (hx : Accounted x)
    (hf : ∀ a, Accounted (f a)) : Accounted (x >>= f) :=
  Prog.Does.bind_of hx fun a _ hl => (hf a).mono fun _ _ hl' => hl.append hl'

variable {τ : Type} {lg : Logger τ}

theorem reserveRecord_unnoted (n : Nat) (onDrop : Option Emit) :
    Notes (lg.reserveRecord n onDrop) fun _ l => l = [] := by
  refine Prog.Does.after_silent currentWriter_plain.unnoted fun b => ?_
  refine Prog.Does.after_silent (tryReserve_plain b n).unnoted fun slot => ?_
  cases slot with
  | some slot => exact rfl
  | none =>
    refine Prog.Does.after_silent refillWriter_plain.unnoted fun b => ?_
    refine Prog.Does.after_silent (tryReserve_plain b n).unnoted fun slot => ?_
    cases slot with
    | some slot => exact rfl
    | none => exact Prog.Does.after_silent (Prog.Does.perform _) fun _ => rfl

theorem storeHeadWord_notes (a word : Nat) (publishes : Option Written) :
    Notes (lg.storeHeadWord a word publishes) fun _ l => l = headNotes lg.split word := by
  unfold Logger.storeHeadWord headNotes
  by_cases hsplit : lg.split = true
  · rw [if_pos hsplit, if_pos hsplit]
    refine Prog.Does.bind_of (Prog.Does.perform (Op.storeLow32 a (word % 2 ^ 32))) fun _ l hl => ?_
    subst hl
    refine Prog.Does.mono (Prog.Does.perform (Op.storeHigh32 a (word / 2 ^ 32) publishes))
      fun _ l hl => ?_
    rw [hl]
    rfl
  · rw [if_neg hsplit, if_neg hsplit]
    exact Prog.Does.perform (Op.store64 a word publishes)

theorem countTruncationIf_notes (cut : Bool) :
    Notes (Logger.countTruncationIf cut) fun _ l => l = markIf .counted cut := by
  cases cut with
  | true => exact Prog.Does.perform Op.countTruncation
  | false => exact rfl

/-- A commit, and the count behind it. -/
theorem commit_accounted (slot : Reservation) {kind : RecordKind} (hkind : kind.Named)
    {flags : UInt8} {cut : Bool} (hflag : (flags &&& cFlagTruncated != 0) = cut) (n : Nat)
    (publishes : Option Written) :
    Accounted (lg.commit slot kind flags n publishes >>= fun _ => Logger.countTruncationIf cut) := by
  refine Prog.Does.bind_of (storeHeadWord_notes _ _ _) fun _ l hl => ?_
  refine (countTruncationIf_notes cut).mono fun _ l' hl' => ?_
  rw [hl, hl']
  exact paired_record (Or.inl rfl) hkind hflag

/-- … and what is returned then. -/
theorem commit_accounted_pure {α : Type} (slot : Reservation) {kind : RecordKind}
    (hkind : kind.Named) (cut : Bool) (n : Nat) (publishes : Option Written) (a : α) :
    Accounted (lg.commit slot kind (if cut then cFlagTruncated else 0) n publishes >>= fun _ =>
      Logger.countTruncationIf cut >>= fun _ => pure a) := by
  have hcommit : Accounted (lg.commit slot kind (if cut then cFlagTruncated else 0) n publishes >>=
      fun _ => Logger.countTruncationIf cut) :=
    commit_accounted slot hkind (truncated_read cut) n publishes
  have hboth := hcommit.bind fun _ => accounted_pure a
  rwa [Prog.bind_assoc] at hboth

/-- The counter counts what is noted as counted, modulo its width. -/
theorem truncated_step [DecidableEq τ] {t : τ} {op : Op} {r : op.Answer} {s s' : State τ}
    (h : sem lg t op s r s') {n : Nat} (hn : s.truncated = n % lg.counterWrap) :
    s'.truncated = (n + (op.headNotes r).countP HeadNote.isCounted) % lg.counterWrap := by
  have hsame : s'.truncated = s.truncated → s'.truncated = (n + 0) % lg.counterWrap := fun heq =>
    heq.trans hn
  cases op with
  | claimChunkIndex =>
    have hs : s' = (claimChunkIndex lg t s).2 := congrArg Prod.snd h
    refine hsame ?_
    rw [hs]
    unfold claimChunkIndex
    split
    · rfl
    · split <;> rfl
  | loadKey | currentThreadId | loadCache | copyOrder => exact hsame (by rw [(show s' = s from h.2)])
  | monotonicNow => exact hsame (by rw [(show s' = s from h)])
  | storeKey | storeCache | storeByte | storeLow32 | store64 | storeHigh32 | countDrop =>
    exact hsame (by rw [(show s' = _ from h)])
  | countTruncation =>
    obtain rfl : s' = _ := h
    show (s.truncated + 1) % lg.counterWrap = (n + 1) % lg.counterWrap
    rw [hn, Nat.mod_add_mod]

/-! ### Definitions -/

theorem storeDefinition_accounted (d : SiteDefinition) (slot : Reservation)
    (lengths : Nat × Nat × Bool) : Accounted (lg.storeDefinition d slot lengths) :=
  Prog.Does.after_silent (copyBytes_plain _ _).unnoted fun _ =>
    commit_accounted_pure slot (show RecordKind.siteDefinition.Named from fun _ h => by cases h) lengths.2.2 _ _ true

/-- `writeSiteDefinitionCore`. -/
theorem writeSiteDefinitionCore_accounted (d : SiteDefinition) (onDrop : Option Emit) :
    Accounted (lg.writeSiteDefinitionCore d onDrop) := by
  have hdropped : Accounted (countDrop onDrop >>= fun _ => pure false) :=
    Prog.Does.after_silent (Prog.Does.perform _) fun _ => Paired.nil
  refine Prog.Does.after_silent currentWriter_plain.unnoted fun b => ?_
  refine Prog.Does.after_silent (tryReserve_plain b _).unnoted fun slot => ?_
  cases slot with
  | some slot => exact storeDefinition_accounted d slot _
  | none =>
    refine Prog.Does.after_silent refillWriter_plain.unnoted fun b => ?_
    cases b with
    | false => exact hdropped
    | true =>
      refine Prog.Does.after_silent (reserve_plain _).unnoted fun slot => ?_
      cases slot with
      | some slot => exact storeDefinition_accounted d slot _
      | none =>
        refine Prog.Does.after_silent remaining_plain.unnoted fun left => ?_
        refine Prog.Does.after_silent (reserve_plain _).unnoted fun slot => ?_
        cases slot with
        | some slot => exact storeDefinition_accounted d slot _
        | none => exact hdropped

/-- `writeSubsystemDefinition`. -/
theorem writeSubsystemDefinition_accounted (id : UInt32) (name : List UInt8) :
    Accounted (lg.writeSubsystemDefinition id name) := by
  refine Prog.Does.after_silent (reserveRecord_unnoted _ none) fun slot => ?_
  cases slot with
  | none => exact Paired.nil
  | some slot =>
    exact Prog.Does.after_silent (copyBytes_plain _ _).unnoted fun _ =>
      commit_accounted_pure slot (show RecordKind.subsystemDefinition.Named from fun _ h => by cases h) _ _ _ true

/-! ### Messages -/

theorem reserveSlots_plain (maxSlots count : Nat) (slots : List ContinuationSlot) :
    Plain (reserveSlots maxSlots count slots) := by
  induction slots generalizing count with
  | nil => exact trivial
  | cons slot rest ih =>
    refine Prog.Only.bind (reserve_plain _) fun reservation => ?_
    cases reservation with
    | none => exact trivial
    | some reservation =>
      show Plain (if maxSlots ≤ count then _ else _)
      split
      · exact trivial
      · exact Prog.Only.bind (ih (count + 1)) fun _ => trivial

theorem tryReserveChain_plain (writer : Bool) (args : List Arg) :
    Plain (tryReserveChain writer args) := by
  cases writer with
  | false => exact trivial
  | true =>
    refine Prog.Only.bind remaining_plain fun left => ?_
    split
    · exact trivial
    · refine Prog.Only.bind (reserve_plain _) fun message => ?_
      cases message with
      | none => exact trivial
      | some message => exact Prog.Only.bind (reserveSlots_plain _ _ _) fun _ => trivial

theorem storeContinuations_plain (siteId : UInt64) (conts : List (Reservation × ContinuationSlot)) :
    Plain (storeContinuations siteId conts) := by
  induction conts with
  | nil => exact trivial
  | cons cont rest ih => exact Prog.Only.bind (copyBytes_plain _ _) fun _ => ih

/-- No Continuation carries the flag. -/
theorem commitContinuations_accounted (conts : List (Reservation × ContinuationSlot)) :
    Accounted (lg.commitContinuations conts) := by
  induction conts with
  | nil => exact Paired.nil
  | cons cont rest ih =>
    refine Accounted.bind ?_ fun _ => ih
    refine (storeHeadWord_notes _ _ _).mono fun _ l hl => ?_
    rw [hl]
    refine paired_whole (fun _ h => by cases h) ?_
    show ((if rest = [] then (0 : UInt8) else cFlagContinued) &&& cFlagTruncated != 0) = false
    split <;> decide

theorem storeChain_accounted (e : Emit) (message : Reservation)
    (conts : List (Reservation × ContinuationSlot)) (anyTruncated : Bool) :
    Accounted (lg.storeChain e message conts anyTruncated) := by
  have hflag : ∀ continued,
      (Emission.messageFlags anyTruncated continued &&& cFlagTruncated != 0) = anyTruncated := by
    intro continued
    cases anyTruncated <;> cases continued <;> decide
  refine Prog.Does.after_silent (Prog.Does.perform _) fun monoNs => ?_
  refine Prog.Does.after_silent (copyBytes_plain _ _).unnoted fun _ => ?_
  refine Prog.Does.after_silent (storeContinuations_plain _ _).unnoted fun _ => ?_
  refine Accounted.bind (commitContinuations_accounted conts) fun _ => ?_
  exact commit_accounted message (show RecordKind.message.Named from fun _ h => by cases h)
    (hflag (decide (conts ≠ []))) _ _

/-- `emitChained`. -/
theorem emitChained_accounted (e : Emit) : Accounted (lg.emitChained e) := by
  have hdropped : Accounted (countDrop (some e)) := Prog.Does.mono (Prog.Does.perform _) fun _ l hl => by
    rw [hl]
    exact Paired.nil
  refine Prog.Does.after_silent currentWriter_plain.unnoted fun b => ?_
  refine Prog.Does.after_silent (tryReserveChain_plain b _).unnoted fun reserved => ?_
  cases reserved with
  | some slots => exact storeChain_accounted e slots.1 _ _
  | none =>
    refine Prog.Does.after_silent refillWriter_plain.unnoted fun b => ?_
    refine Prog.Does.after_silent (tryReserveChain_plain b _).unnoted fun reserved => ?_
    cases reserved with
    | some slots => exact storeChain_accounted e slots.1 _ _
    | none =>
      cases b with
      | false => exact hdropped
      | true =>
        -- the Message alone, which is cut
        refine Prog.Does.after_silent (reserve_plain _).unnoted fun message => ?_
        cases message with
        | none => exact hdropped
        | some message => exact storeChain_accounted e message [] true

theorem emitFixed_accounted (e : Emit) : Accounted (lg.emitFixed e) := by
  refine Prog.Does.after_silent (reserveRecord_unnoted _ _) fun slot => ?_
  cases slot with
  | none => exact Paired.nil
  | some slot =>
    refine Prog.Does.after_silent (Prog.Does.perform _) fun monoNs => ?_
    refine Prog.Does.after_silent (copyBytes_plain _ _).unnoted fun _ => ?_
    exact commit_accounted slot (show RecordKind.message.Named from fun _ h => by cases h) (truncated_read _) _ _

theorem emitMessage_accounted (e : Emit) : Accounted (lg.emitMessage e) := by
  unfold Logger.emitMessage
  split
  · exact emitChained_accounted e
  · exact emitFixed_accounted e

/-- `emitRecord`. -/
theorem emitRecord_accounted (e : Emit) : Accounted (lg.emitRecord e) := by
  refine Prog.Does.after_silent (Prog.Does.perform _) fun key => ?_
  split
  · refine Accounted.bind (writeSiteDefinitionCore_accounted _ _) fun announced => ?_
    split
    · exact Prog.Does.after_silent (Prog.Does.perform _) fun _ => emitMessage_accounted e
    · exact Paired.nil
  · exact emitMessage_accounted e

/-- **Every call of the producer** counts what it flags. -/
theorem call_accounted (c : Call lg) : Accounted (lg.call c) := by
  cases c with
  | emit e typed => exact emitRecord_accounted e
  | declareSubsystem id name =>
    exact Accounted.bind (writeSubsystemDefinition_accounted id name) fun _ => Paired.nil
  | defineSite d =>
    exact Accounted.bind (writeSiteDefinitionCore_accounted d none) fun _ => Paired.nil

end Sub0Log.Producer
