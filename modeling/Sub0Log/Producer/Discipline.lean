import Sub0Log.Producer.Program

/-!
# What every call keeps

A `Discipline` says of the operations what some property of runs needs: that a thread's cache is
its Logger's behind `currentWriter`, that a reservation is a place where a record may be stored,
and that the operations keep an invariant when they store at such places only. The code of the
producer is walked through once, function by function, and `Discipline.thread_keeps` hands the
invariant to whole threads; who has a new property of runs brings a new `Discipline`.
-/

open Bytes Interleaving

namespace Sub0Log.Producer

open Wire

variable {τ σ α β : Type}

/-- The cache is of this Logger. -/
def Tagged (lg : Logger τ) (cache : WriterCache) : Prop :=
  cache.owner = lg.address ∧ cache.generation = lg.segment.generation

/-- What the code of a thread is held to. `own` says that the thread's cache is its Logger's, if
the Boolean does; `Writer` and `Slot` are what is promised of a writer and of a reservation. -/
structure Discipline (lg : Logger τ) (R : Spec τ σ) (step : Sem Op.Answer τ σ) (t : τ) where
  own : Bool → σ → Prop
  own_any : ∀ b s, own b s → own false s
  Writer : ChunkWriter → Prop
  Slot : Reservation → Nat → Prop
  reserved : ∀ {w w' : ChunkWriter} {n slot}, Writer w → w.reserve n = some (slot, w') →
    Slot slot n ∧ Writer w'
  onLoadKey : ∀ b id, R.Triple step t (own b) (loadKey id) fun _ => own b
  onStoreKey : ∀ b id, R.Triple step t (own b) (storeKey id lg.segment.announceKey) fun _ => own b
  onMonotonicNow : ∀ b, R.Triple step t (own b) monotonicNow fun _ => own b
  onCountDrop : ∀ b emit, R.Triple step t (own b) (countDrop emit) fun _ => own b
  onCountTruncation : ∀ b, R.Triple step t (own b) countTruncation fun _ => own b
  onLoadCache : ∀ b, R.Triple step t (own b) loadCache fun cache s => own b s ∧
    (b = true → Tagged lg cache) ∧ (Tagged lg cache → Writer cache.writer ∧ own true s)
  onStoreCache : ∀ b {cache}, Tagged lg cache → Writer cache.writer →
    R.Triple step t (own b) (storeCache cache) fun _ => own true
  onClaimChunk : ∀ b, R.Triple step t (own b) lg.claimChunk fun w s => Writer w ∧ own b s
  onCopyBytes : ∀ b {slot bytes}, Slot slot bytes.length →
    R.Triple step t (own b) (copyBytes (slot.headWord + 8) bytes) fun _ => own b
  onStoreHeadWord : ∀ b {slot n} word publishes, Slot slot n →
    R.Triple step t (own b) (lg.storeHeadWord slot.headWord word publishes) fun _ => own b

namespace Discipline

variable {lg : Logger τ} {R : Spec τ σ} {step : Sem Op.Answer τ σ} {t : τ}
variable (D : Discipline lg R step t) {b b₁ b₂ : Bool}

/-- Code that keeps to the discipline, and what is known of its answer. -/
def Keeps (b : Bool) (x : Code α) (Q : α → Prop) (b' : Bool) : Prop :=
  R.Triple step t (D.own b) x fun a s => Q a ∧ D.own b' s

variable {D}

theorem Keeps.pure {a : α} {Q : α → Prop} (h : Q a) : D.Keeps b (pure a : Code α) Q b :=
  Spec.Triple.pure fun _ _ hP => ⟨h, hP⟩

theorem Keeps.bind {x : Code α} {f : α → Code β} {Q : α → Prop} {Q' : β → Prop}
    (hx : D.Keeps b x Q b₁) (hf : ∀ a, Q a → D.Keeps b₁ (f a) Q' b₂) :
    D.Keeps b (x >>= f) Q' b₂ :=
  Spec.Triple.bind hx fun a => Spec.Triple.of_pure (hf a)

/-- Nothing needs to be known of an answer. -/
theorem Keeps.of {x : Code α} (h : R.Triple step t (D.own b) x fun _ => D.own b₁) :
    D.Keeps b x (fun _ => True) b₁ :=
  Spec.Triple.conseq h (fun _ _ hP => hP) fun _ _ _ hQ => ⟨trivial, hQ⟩

/-- Nor of the cache in the end. -/
theorem Keeps.any {x : Code α} {Q : α → Prop} (h : D.Keeps b x Q b₁) :
    D.Keeps b x (fun _ => True) false :=
  Spec.Triple.conseq h (fun _ _ hP => hP) fun _ _ _ hQ => ⟨trivial, D.own_any _ _ hQ.2⟩

theorem Keeps.forget {x : Code α} {Q : α → Prop} (h : D.Keeps b x Q b₁) :
    D.Keeps b x (fun _ => True) b₁ :=
  Spec.Triple.conseq h (fun _ _ hP => hP) fun _ _ _ hQ => ⟨trivial, hQ.2⟩

/-! ### Writers -/

theorem refillWriter_keeps : D.Keeps b lg.refillWriter (fun _ => True) true := by
  refine Keeps.bind (D.onClaimChunk b) fun w hw => ?_
  refine Keeps.bind (Keeps.of (D.onStoreCache b ⟨rfl, rfl⟩ hw)) fun _ _ => ?_
  exact Keeps.pure trivial

/-- Whatever the thread's cache was, it is the Logger's afterwards. -/
theorem currentWriter_keeps : D.Keeps b lg.currentWriter (fun _ => True) true := by
  refine Spec.Triple.bind (D.onLoadCache b) fun cache => ?_
  by_cases hother : cache.owner ≠ lg.address ∨ cache.generation ≠ lg.segment.generation
  · rw [if_pos hother]
    exact Spec.Triple.conseq (refillWriter_keeps (D := D) (b := b)) (fun _ _ hP => hP.1)
      fun _ _ _ hQ => hQ
  · rw [if_neg hother]
    obtain ⟨howner, hgeneration⟩ := not_or.mp hother
    exact Spec.Triple.pure fun _ _ hP =>
      ⟨trivial, (hP.2.2 ⟨not_not.mp howner, not_not.mp hgeneration⟩).2⟩

theorem remaining_keeps : D.Keeps b remaining (fun _ => True) b :=
  Spec.Triple.bind (D.onLoadCache b) fun _ => Spec.Triple.pure fun _ _ hP => ⟨trivial, hP.1⟩

/-- A reservation is a place for a record. -/
theorem reserve_keeps (n : Nat) :
    D.Keeps true (reserve n) (fun r => ∀ slot ∈ r, D.Slot slot n) true := by
  refine Spec.Triple.bind (D.onLoadCache true) fun cache => ?_
  cases hreserve : cache.writer.reserve n with
  | none => exact Spec.Triple.pure fun _ _ hP => ⟨nofun, hP.1⟩
  | some r =>
    obtain ⟨slot, writer⟩ := r
    intro s hinv hP
    -- the cache that was loaded was the Logger's, so its writer is known
    have htagged : Tagged lg { cache with writer := writer } := hP.2.1 rfl
    obtain ⟨hslot, hwriter⟩ := D.reserved (hP.2.2 (hP.2.1 rfl)).1 hreserve
    have hstore : D.Keeps true (storeCache { cache with writer := writer } >>= fun _ =>
        Prog.ret (some slot)) (fun r => ∀ slot ∈ r, D.Slot slot n) true :=
      Keeps.bind (Keeps.of (D.onStoreCache true htagged hwriter)) fun _ _ =>
        Keeps.pure fun slot' hmem => Option.some.inj hmem ▸ hslot
    exact hstore s hinv hP.1

theorem tryReserve_keeps (writer : Bool) (n : Nat) :
    D.Keeps true (tryReserve writer n) (fun r => ∀ slot ∈ r, D.Slot slot n) true := by
  cases writer with
  | true => exact reserve_keeps n
  | false => exact Keeps.pure nofun

theorem reserveRecord_keeps (n : Nat) (onDrop : Option Emit) :
    D.Keeps b (lg.reserveRecord n onDrop) (fun r => ∀ slot ∈ r, D.Slot slot n) true := by
  refine Keeps.bind currentWriter_keeps fun writer _ => ?_
  refine Keeps.bind (tryReserve_keeps writer n) fun slot hslot => ?_
  cases slot with
  | some slot => exact Keeps.pure hslot
  | none =>
    refine Keeps.bind refillWriter_keeps fun writer _ => ?_
    refine Keeps.bind (tryReserve_keeps writer n) fun slot hslot => ?_
    cases slot with
    | some slot => exact Keeps.pure hslot
    | none => exact Keeps.bind (Keeps.of (D.onCountDrop true onDrop)) fun _ _ => Keeps.pure nofun

/-! ### Records -/

theorem commit_keeps {slot : Reservation} {n : Nat} (hslot : D.Slot slot n) (kind : RecordKind)
    (flags : UInt8) (payloadBytes : Nat) (publishes : Option Written) :
    D.Keeps b (lg.commit slot kind flags payloadBytes publishes) (fun _ => True) b :=
  Keeps.of (D.onStoreHeadWord b _ publishes hslot)

theorem countTruncationIf_keeps (cut : Bool) :
    D.Keeps b (Logger.countTruncationIf cut) (fun _ => True) b := by
  cases cut with
  | true => exact Keeps.of (D.onCountTruncation b)
  | false => exact Keeps.pure trivial

/-- A definition whose payload has its place. -/
theorem storeDefinition_keeps (d : SiteDefinition) {slot : Reservation}
    {lengths : Nat × Nat × Bool} (hformat : lengths.1 ≤ d.format.length)
    (hfile : lengths.2.1 ≤ d.file.length)
    (hslot : D.Slot slot (definitionPayloadBytes d.typeCodes.length lengths.1 lengths.2.1)) :
    D.Keeps b (lg.storeDefinition d slot lengths) (fun _ => True) b := by
  rw [← d.payload_length hformat hfile] at hslot
  refine Keeps.bind (Keeps.of (D.onCopyBytes b hslot)) fun _ _ => ?_
  refine Keeps.bind (commit_keeps hslot _ _ _ _) fun _ _ => ?_
  exact Keeps.bind (countTruncationIf_keeps _) fun _ _ => Keeps.pure trivial

theorem writeSiteDefinitionCore_keeps (d : SiteDefinition) (onDrop : Option Emit) :
    D.Keeps b (lg.writeSiteDefinitionCore d onDrop) (fun _ => True) true := by
  have hdropped : D.Keeps true (countDrop onDrop >>= fun _ => pure false) (fun _ => True) true :=
    Keeps.bind (Keeps.of (D.onCountDrop true onDrop)) fun _ _ => Keeps.pure trivial
  have hwhole : ∀ slot, D.Slot slot d.wholeBytes →
      D.Keeps true (lg.storeDefinition d slot (d.format.length, d.file.length, false))
        (fun _ => True) true := fun slot hslot =>
    storeDefinition_keeps d (Nat.le_refl _) (Nat.le_refl _) hslot
  refine Keeps.bind currentWriter_keeps fun writer _ => ?_
  refine Keeps.bind (tryReserve_keeps writer _) fun slot hslot => ?_
  cases slot with
  | some slot => exact hwhole slot (hslot slot rfl)
  | none =>
    refine Keeps.bind refillWriter_keeps fun writer _ => ?_
    cases writer with
    | false => exact hdropped
    | true =>
      refine Keeps.bind (reserve_keeps _) fun slot hslot => ?_
      cases slot with
      | some slot => exact hwhole slot (hslot slot rfl)
      | none =>
        refine Keeps.bind remaining_keeps fun left _ => ?_
        refine Keeps.bind (reserve_keeps _) fun slot hslot => ?_
        cases slot with
        | some slot =>
          exact storeDefinition_keeps d (Nat.min_le_left _ _) (Nat.min_le_left _ _)
            (hslot slot rfl)
        | none => exact hdropped

theorem writeSubsystemDefinition_keeps (id : UInt32) (name : List UInt8) :
    D.Keeps b (lg.writeSubsystemDefinition id name) (fun _ => True) true := by
  refine Keeps.bind (reserveRecord_keeps _ none) fun slot hslot => ?_
  cases slot with
  | none => exact Keeps.pure trivial
  | some slot =>
    refine Keeps.bind (Keeps.of (D.onCopyBytes true (hslot slot rfl))) fun _ _ => ?_
    refine Keeps.bind (commit_keeps (hslot slot rfl) _ _ _ _) fun _ _ => ?_
    exact Keeps.bind (countTruncationIf_keeps _) fun _ _ => Keeps.pure trivial

/-! ### Chains -/

/-- The places of a chain's Continuations. -/
def Places (D : Discipline lg R step t) (others : List Reservation)
    (slots : List ContinuationSlot) : Prop :=
  List.Forall₂ (fun r slot => D.Slot r (continuationPayloadBytes slot)) others slots

theorem reserveSlots_keeps (maxSlots count : Nat) (slots : List ContinuationSlot) :
    D.Keeps true (reserveSlots maxSlots count slots) (fun r => ∀ others ∈ r, D.Places others slots)
      true := by
  induction slots generalizing count with
  | nil => exact Keeps.pure fun others hmem => Option.some.inj hmem ▸ List.Forall₂.nil
  | cons slot rest ih =>
    refine Keeps.bind (reserve_keeps _) fun reservation hslot => ?_
    cases reservation with
    | none => exact Keeps.pure nofun
    | some reservation =>
      show D.Keeps true (if maxSlots ≤ count then _ else _) _ true
      split
      · exact Keeps.pure nofun
      · refine Keeps.bind (ih _) fun others hothers => Keeps.pure fun all hmem => ?_
        obtain ⟨others', heq, rfl⟩ := Option.map_eq_some_iff.mp hmem
        exact List.Forall₂.cons (hslot _ rfl) (hothers _ heq)

theorem reserveChain_keeps (args : List Arg) :
    D.Keeps true (reserveChain args) (fun r => ∀ p ∈ r, D.Slot p.1 (messagePayloadBytes args) ∧
      D.Places p.2 (contSlots args)) true := by
  refine Keeps.bind remaining_keeps fun left _ => ?_
  split
  · exact Keeps.pure nofun
  · refine Keeps.bind (reserve_keeps _) fun message hmessage => ?_
    cases message with
    | none => exact Keeps.pure nofun
    | some message =>
      refine Keeps.bind (reserveSlots_keeps _ _ _) fun others hothers => Keeps.pure fun p hmem => ?_
      obtain ⟨others', heq, rfl⟩ := Option.map_eq_some_iff.mp hmem
      exact ⟨hmessage _ rfl, hothers _ heq⟩

theorem tryReserveChain_keeps (writer : Bool) (args : List Arg) :
    D.Keeps true (tryReserveChain writer args) (fun r => ∀ p ∈ r,
      D.Slot p.1 (messagePayloadBytes args) ∧ D.Places p.2 (contSlots args)) true := by
  cases writer with
  | true => exact reserveChain_keeps args
  | false => exact Keeps.pure nofun

/-- Continuations beside their places. -/
def Placed (D : Discipline lg R step t) (conts : List (Reservation × ContinuationSlot)) : Prop :=
  ∀ p ∈ conts, D.Slot p.1 (continuationPayloadBytes p.2)

theorem placed_nil (D : Discipline lg R step t) : D.Placed [] := fun _ hp => absurd hp List.not_mem_nil

theorem Places.zip {others : List Reservation} {slots : List ContinuationSlot}
    (h : D.Places others slots) : D.Placed (others.zip slots) := fun _ hp =>
  (List.forall₂_iff_zip.mp h).2 hp

theorem storeContinuations_keeps (id : UInt64) {conts : List (Reservation × ContinuationSlot)}
    (h : D.Placed conts) : D.Keeps b (storeContinuations id conts) (fun _ => True) b := by
  induction conts with
  | nil => exact Keeps.pure trivial
  | cons cont rest ih =>
    have hslot := h cont List.mem_cons_self
    rw [← cont.2.payload_length id] at hslot
    exact Keeps.bind (Keeps.of (D.onCopyBytes b hslot)) fun _ _ =>
      ih fun p hp => h p (List.mem_cons_of_mem _ hp)

theorem commitContinuations_keeps {conts : List (Reservation × ContinuationSlot)}
    (h : D.Placed conts) : D.Keeps b (lg.commitContinuations conts) (fun _ => True) b := by
  induction conts with
  | nil => exact Keeps.pure trivial
  | cons cont rest ih =>
    exact Keeps.bind (commit_keeps (h cont List.mem_cons_self) _ _ _ _) fun _ _ =>
      ih fun p hp => h p (List.mem_cons_of_mem _ hp)

theorem storeChain_keeps (e : Emit) {message : Reservation}
    (hmessage : D.Slot message (messagePayloadBytes e.args))
    {conts : List (Reservation × ContinuationSlot)} (h : D.Placed conts) (cut : Bool) :
    D.Keeps b (lg.storeChain e message conts cut) (fun _ => True) b := by
  refine Keeps.bind (Keeps.of (D.onMonotonicNow b)) fun monoNs _ => ?_
  have hpayload : D.Slot message
      (Emission.mk e.site monoNs (lg.correlation e.correlation) e.args).payload.length := by
    rw [Emission.payload_length]
    exact hmessage
  refine Keeps.bind (Keeps.of (D.onCopyBytes b hpayload)) fun _ _ => ?_
  refine Keeps.bind (storeContinuations_keeps _ h) fun _ _ => ?_
  refine Keeps.bind (commitContinuations_keeps h) fun _ _ => ?_
  refine Keeps.bind (commit_keeps hmessage _ _ _ _) fun _ _ => ?_
  exact countTruncationIf_keeps _

theorem emitChained_keeps (e : Emit) : D.Keeps b (lg.emitChained e) (fun _ => True) true := by
  refine Keeps.bind currentWriter_keeps fun writer _ => ?_
  refine Keeps.bind (tryReserveChain_keeps writer _) fun reserved hreserved => ?_
  cases reserved with
  | some p => exact storeChain_keeps e (hreserved p rfl).1 (hreserved p rfl).2.zip _
  | none =>
    refine Keeps.bind refillWriter_keeps fun writer _ => ?_
    refine Keeps.bind (tryReserveChain_keeps writer _) fun reserved hreserved => ?_
    cases reserved with
    | some p => exact storeChain_keeps e (hreserved p rfl).1 (hreserved p rfl).2.zip _
    | none =>
      cases writer with
      | false => exact Keeps.of (D.onCountDrop true _)
      | true =>
        refine Keeps.bind (reserve_keeps _) fun message hmessage => ?_
        cases message with
        | none => exact Keeps.of (D.onCountDrop true _)
        | some message => exact storeChain_keeps e (hmessage _ rfl) (placed_nil D) _

/-! ### Calls -/

/-- A pack without byte arguments is encoded into what was reserved for it. -/
theorem emitFixed_keeps {e : Emit} (hfixed : cHasByteArg e.args = false) :
    D.Keeps b (lg.emitFixed e) (fun _ => True) true := by
  refine Keeps.bind (reserveRecord_keeps _ _) fun slot hslot => ?_
  cases slot with
  | none => exact Keeps.pure trivial
  | some slot =>
    refine Keeps.bind (Keeps.of (D.onMonotonicNow true)) fun monoNs _ => ?_
    have hencoded := encodeArgs_fixed
      (sizeofMessagePayload + upperBoundSize e.args - sizeofMessagePayload) hfixed
    have hlength : (Emission.mk e.site monoNs (lg.correlation e.correlation) e.args).payload.length
        = sizeofMessagePayload + upperBoundSize e.args := by
      rw [Emission.payload_length, hencoded.2]
      rfl
    have hpayload := hslot slot rfl
    rw [← hlength] at hpayload
    simp only [hencoded.1]
    refine Keeps.bind (Keeps.of (D.onCopyBytes true hpayload)) fun _ _ => ?_
    refine Keeps.bind (commit_keeps hpayload _ _ _ _) fun _ _ => ?_
    exact countTruncationIf_keeps _

theorem emitMessage_keeps (e : Emit) : D.Keeps b (lg.emitMessage e) (fun _ => True) false := by
  unfold Logger.emitMessage
  by_cases hbyte : cHasByteArg e.args = true
  · rw [if_pos hbyte]
    exact (emitChained_keeps e).any
  · rw [if_neg hbyte]
    exact (emitFixed_keeps (Bool.eq_false_of_not_eq_true hbyte)).any

theorem emitRecord_keeps (e : Emit) : D.Keeps b (lg.emitRecord e) (fun _ => True) false := by
  refine Keeps.bind (Keeps.of (D.onLoadKey b e.site)) fun key _ => ?_
  split
  · refine Keeps.bind (writeSiteDefinitionCore_keeps _ _) fun announced _ => ?_
    cases announced with
    | true =>
      exact Keeps.bind (Keeps.of (D.onStoreKey true e.site)) fun _ _ => emitMessage_keeps e
    | false => exact (Keeps.pure (Q := fun _ => True) trivial).any
  · exact emitMessage_keeps e

/-- **A thread keeps to its discipline**, whatever it calls. -/
theorem thread_keeps (D : Discipline lg R step t) (calls : List (Call lg)) :
    R.Triple step t (D.own false) (lg.thread calls) fun _ => D.own false := by
  have hthread : D.Keeps false (lg.thread calls) (fun _ => True) false := by
    induction calls with
    | nil => exact Keeps.pure trivial
    | cons c calls ih =>
      refine Keeps.bind (Q := fun _ => True) (?_ : D.Keeps false _ _ false) fun _ _ => ih
      cases c with
      | emit e typed => exact emitRecord_keeps e
      | declareSubsystem id name =>
        exact Keeps.bind (writeSubsystemDefinition_keeps id name).any fun _ _ => Keeps.pure trivial
      | defineSite d =>
        exact Keeps.bind (writeSiteDefinitionCore_keeps d none).any fun _ _ => Keeps.pure trivial
  exact Spec.Triple.conseq hthread (fun _ _ hP => hP) fun _ _ _ hQ => hQ.2

end Discipline

end Sub0Log.Producer
