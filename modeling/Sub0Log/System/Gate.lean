import Sub0Log.Library.Weaving
import Sub0Log.System.Ledger

/-!
# The threshold

A call site does not call `emitRecord` before `enabled` has compared its severity with the
threshold of its subsystem: one load of a slot that control threads store to at any time. The
first `cSubsystemLevels` subsystems have a slot each, the others share the process-wide one;
setting the threshold of all stores every slot, one after another.

The threads follow `script`: they load and store slots, and play the calls that pass. A run is
a sequence of such loads and stores (`Decision`), each load finding what the stores before it have
left (`slotsAfter`), and a run of the calls that passed.

* **`gated_ledger`** — the ledger of the calls that passed.
-/

open Bytes Interleaving

namespace Sub0Log.System

open Wire Reader Producer

variable {τ : Type}

/-! ### Slots -/

/-- `cSubsystemLevels`. -/
def cSubsystemLevels : Nat := 64

/-- `threshold_`, and the slots of `subsystemThreshold_`. -/
abbrev Slot : Type := Option (Fin cSubsystemLevels)

/-- The slot `Logger::threshold` loads. -/
def thresholdSlot (subsystem : UInt32) : Slot :=
  if h : subsystem.toNat < cSubsystemLevels then some ⟨subsystem.toNat, h⟩ else none

/-- `atLeast`. -/
def atLeast (value threshold : UInt8) : Bool := decide (threshold ≤ value)

inductive GateOp
  /-- The load in `enabled`, at the call site of an emit. -/
  | loadThreshold (emit : Emit)
  | storeThreshold (slot : Slot) (severity : UInt8)

def GateOp.Answer : GateOp → Type
  | loadThreshold _ => UInt8
  | storeThreshold _ _ => Unit

/-- The slot a call site is checked against. -/
def siteSlot (lg : Logger τ) (e : Emit) : Slot := thresholdSlot (lg.sites e.site).subsystem

def gateSem (lg : Logger τ) : Sem GateOp.Answer τ (Slot → UInt8) := fun _ op slots answer slots' =>
  match op, answer with
  | .loadThreshold e, severity => severity = slots (siteSlot lg e) ∧ slots' = slots
  | .storeThreshold slot severity, _ => slots' = Function.update slots slot severity

/-! ### Calls -/

/-- What a thread may be asked to do: a call site, and the two `setThreshold`. -/
inductive GatedCall (lg : Logger τ)
  | log (e : Emit) (typed : lg.Typed e)
  | setThreshold (severity : UInt8)
  | setSubsystemThreshold (subsystem : UInt32) (severity : UInt8)

/-- An emit with arguments of its site's types. -/
abbrev TypedEmit (lg : Logger τ) : Type := { e : Emit // lg.Typed e }

/-- The call of an emit that has passed. -/
def emitPassed (lg : Logger τ) (e : TypedEmit lg) : Code Unit := lg.emitRecord e.val

/-- An emit starts with an operation. -/
theorem emitPassed_op (lg : Logger τ) (e : TypedEmit lg) :
    ∃ i next, emitPassed lg e = .op i next := ⟨_, _, rfl⟩

/-- What a thread does, the emits that pass in their places. -/
abbrev GateScript (lg : Logger τ) (α : Type) : Type := Script GateOp.Answer (TypedEmit lg) α

/-- The check in `enabled`. -/
def passes (lg : Logger τ) (e : Emit) (threshold : UInt8) : Bool :=
  atLeast (lg.sites e.site).severity threshold

section Scripts

variable (lg : Logger τ)

/-- `setThreshold`: every slot of the table, in its order. -/
def storeSlots (severity : UInt8) : List (Fin cSubsystemLevels) → GateScript lg Unit
  | [] => pure ()
  | i :: slots => do
    ask (GateOp.storeThreshold (some i) severity)
    storeSlots severity slots

/-- `SUB0LOG_EMIT`, and the two overloads of `setThreshold`. -/
def GatedCall.script : GatedCall lg → GateScript lg Unit
  | .log e typed => do
    let threshold ← ask (GateOp.loadThreshold e)
    if passes lg e threshold = true then play ⟨e, typed⟩ else pure ()
  | .setThreshold severity => do
    ask (GateOp.storeThreshold none severity)
    storeSlots lg severity (List.finRange cSubsystemLevels)
  | .setSubsystemThreshold subsystem severity =>
    if subsystem.toNat < cSubsystemLevels then
      ask (GateOp.storeThreshold (thresholdSlot subsystem) severity)
    else pure ()

/-- A thread's calls, one after another. -/
def script : List (GatedCall lg) → GateScript lg Unit
  | [] => pure ()
  | c :: calls => do
    c.script lg
    script calls

end Scripts

/-- The threads behind the gate. -/
def gatedSem [DecidableEq τ] (lg : Logger τ) :
    Sem (Sum.elim Op.Answer GateOp.Answer) τ (State τ × (Slot → UInt8)) :=
  woven (sem lg) (gateSem lg)

/-- Where a run behind the gate starts. -/
def gatedPool {lg : Logger τ} (L : Launch lg) (slots : Slot → UInt8)
    (calls : τ → List (GatedCall lg)) :
    Pool (Sum.elim Op.Answer GateOp.Answer) τ (State τ × (Slot → UInt8)) Unit :=
  ⟨(L.start, slots), fun t => (script lg (calls t)).played (emitPassed lg)⟩

/-! ### Decisions -/

/-- A load or a store of a slot, or an emit that has passed. -/
abbrev Decision (lg : Logger τ) : Type := Deed GateOp.Answer (TypedEmit lg)

section Decisions

variable {lg : Logger τ}

/-- The slot stored to, and what is stored. -/
def stored? : Decision lg → Option (Slot × UInt8)
  | .asked (.storeThreshold slot severity) _ => some (slot, severity)
  | .asked (.loadThreshold _) _ | .played _ => none

/-- The emit that was checked, and the threshold that was loaded. -/
def loaded? : Decision lg → Option (Emit × UInt8)
  | .asked (.loadThreshold e) threshold => some (e, threshold)
  | .asked (.storeThreshold _ _) _ | .played _ => none

/-- What was stored, in order. -/
def stores (l : List (τ × Decision lg)) : List (Slot × UInt8) := l.filterMap fun d => stored? d.2

/-- What a slot holds after some decisions: what was stored last, if anything. -/
def slotsAfter (slots : Slot → UInt8) (l : List (τ × Decision lg)) (slot : Slot) : UInt8 :=
  ((stores l).reverse.find? fun x => x.1 = slot).elim (slots slot) Prod.snd

variable (slots : Slot → UInt8) (l : List (τ × Decision lg)) {d : τ × Decision lg}

theorem stores_concat : stores (l ++ [d]) = stores l ++ (stored? d.2).toList := by
  unfold stores
  rw [List.filterMap_append]
  rfl

theorem slotsAfter_other (h : stored? d.2 = none) :
    slotsAfter slots (l ++ [d]) = slotsAfter slots l := by
  unfold slotsAfter
  rw [stores_concat, h, Option.toList_none, List.append_nil]

theorem slotsAfter_store {slot : Slot} {severity : UInt8}
    (h : stored? d.2 = some (slot, severity)) :
    slotsAfter slots (l ++ [d]) = Function.update (slotsAfter slots l) slot severity := by
  funext slot'
  unfold slotsAfter
  rw [stores_concat, h, Option.toList_some, List.reverse_append, List.reverse_singleton,
    List.singleton_append]
  by_cases heq : slot' = slot
  · subst heq
    rw [List.find?_cons_of_pos (by simp), Function.update_self]
    rfl
  · rw [List.find?_cons_of_neg (by simpa using Ne.symm heq), Function.update_of_ne heq]

/-- Every load finds what was stored last. -/
def LoadsAgree (slots : Slot → UInt8) (l : List (τ × Decision lg)) : Prop :=
  ∀ pre d post, l = pre ++ d :: post → ∀ e threshold, loaded? d.2 = some (e, threshold) →
    threshold = slotsAfter slots pre (siteSlot lg e)

variable {slots l}

theorem LoadsAgree.concat (h : LoadsAgree slots l)
    (hd : ∀ e threshold, loaded? d.2 = some (e, threshold) →
      threshold = slotsAfter slots l (siteSlot lg e)) : LoadsAgree slots (l ++ [d]) := by
  intro pre d' post heq
  -- the decision is the last one, or an earlier one
  rcases List.eq_nil_or_concat post with rfl | ⟨post', d'', rfl⟩
  · obtain ⟨rfl, hlast⟩ := List.append_inj' heq rfl
    obtain rfl := List.singleton_inj.mp hlast
    exact hd
  · rw [List.concat_eq_append, ← List.cons_append, ← List.append_assoc] at heq
    exact h pre d' post' (List.append_inj' heq rfl).1

/-- **What is loaded was stored last**, in any run of the scripts. -/
theorem asked_slots [DecidableEq τ] {slots' : Slot → UInt8}
    {scripts rest : τ → GateScript lg Unit}
    (h : Reachable (scripted (TypedEmit lg) (gateSem lg)) ⟨(slots, []), scripts⟩
      ⟨(slots', l), rest⟩) : slots' = slotsAfter slots l ∧ LoadsAgree slots l := by
  refine noting_invariant (P := fun s' l' => s' = slotsAfter slots l' ∧ LoadsAgree slots l')
    (fun t i s r s' notes hsem hP => ?_) ?_ h
  · obtain ⟨rfl, hloads⟩ := hP
    cases i with
    | inl op =>
      cases op with
      | loadThreshold e =>
        obtain ⟨hanswer, rfl⟩ : r = slotsAfter slots notes (siteSlot lg e) ∧
          s' = slotsAfter slots notes := hsem
        refine ⟨(slotsAfter_other slots notes rfl).symm, hloads.concat fun e' threshold hload => ?_⟩
        obtain ⟨rfl, rfl⟩ := Prod.mk.inj (Option.some.inj hload)
        exact hanswer
      | storeThreshold slot severity =>
        obtain rfl : s' = Function.update (slotsAfter slots notes) slot severity := hsem
        refine ⟨(slotsAfter_store slots notes rfl).symm, hloads.concat fun _ _ hload => ?_⟩
        cases hload
    | inr b =>
      obtain rfl : s' = slotsAfter slots notes := hsem
      refine ⟨(slotsAfter_other slots notes rfl).symm, hloads.concat fun _ _ hload => ?_⟩
      cases hload
  · refine ⟨rfl, fun pre d post heq => ?_⟩
    cases pre <;> cases heq

end Decisions

/-! ### What passes -/

section Passing

variable {lg : Logger τ}

/-- A store, and nothing else. -/
def store (slot : Slot) (severity : UInt8) : Decision lg :=
  .asked (.storeThreshold slot severity) ()

/-- What a call does. -/
def GatedCall.Decides : GatedCall lg → List (Decision lg) → Prop
  | .log e typed, l => ∃ threshold : UInt8, l = .asked (.loadThreshold e) threshold ::
      if passes lg e threshold = true then [.played ⟨e, typed⟩] else []
  | .setThreshold severity, l => l = store none severity ::
      (List.finRange cSubsystemLevels).map fun i => store (some i) severity
  | .setSubsystemThreshold subsystem severity, l =>
    l = if subsystem.toNat < cSubsystemLevels then [store (thresholdSlot subsystem) severity]
      else []

theorem storeSlots_does (severity : UInt8) (slots : List (Fin cSubsystemLevels)) :
    (storeSlots lg severity slots).Does deed fun _ l =>
      l = slots.map fun i => store (some i) severity := by
  induction slots with
  | nil => exact rfl
  | cons i slots ih =>
    intro r
    refine Prog.Does.mono ih fun _ l hl => ?_
    rw [hl]
    rfl

theorem call_decides (c : GatedCall lg) : (c.script lg).Does deed fun _ l => c.Decides l := by
  cases c with
  | log e typed =>
    intro threshold
    show Prog.Does deed (if passes lg e threshold = true then
      (play ⟨e, typed⟩ : GateScript lg Unit) else pure ()) _
    by_cases hpasses : passes lg e threshold = true
    · rw [if_pos hpasses]
      intro _
      refine ⟨threshold, ?_⟩
      rw [if_pos hpasses]
      rfl
    · rw [if_neg hpasses]
      refine ⟨threshold, ?_⟩
      rw [if_neg hpasses]
      rfl
  | setThreshold severity =>
    intro r
    refine Prog.Does.mono (storeSlots_does severity _) fun _ l hl => ?_
    rw [hl]
    rfl
  | setSubsystemThreshold subsystem severity =>
    show Prog.Does deed (if subsystem.toNat < cSubsystemLevels then
      (ask (GateOp.storeThreshold (thresholdSlot subsystem) severity) : GateScript lg Unit)
      else pure ()) _
    by_cases hslot : subsystem.toNat < cSubsystemLevels
    · rw [if_pos hslot]
      exact fun _ => (if_pos hslot).symm
    · rw [if_neg hslot]
      exact (if_neg hslot).symm

/-- **What a thread does behind the gate**: what its calls do, in their order. -/
theorem script_decides (calls : List (GatedCall lg)) :
    (script lg calls).Does deed fun _ l => ∃ rows,
      List.Forall₂ GatedCall.Decides calls rows ∧ l = rows.flatten := by
  induction calls with
  | nil => exact ⟨[], .nil, rfl⟩
  | cons c calls ih =>
    refine (call_decides c).bind_of fun _ row hrow => ih.mono fun _ l hl => ?_
    obtain ⟨rows, hrows, rfl⟩ := hl
    exact ⟨row :: rows, .cons hrow hrows, rfl⟩

/-- Emits that have passed, as the calls of a thread. -/
def asCalls {lg : Logger τ} (bs : List (TypedEmit lg)) : List (Call lg) :=
  bs.map fun e => Call.emit e.val e.property

theorem playAll_asCalls {lg : Logger τ} (bs : List (TypedEmit lg)) :
    playAll (emitPassed lg) bs = lg.thread (asCalls bs) := by
  induction bs with
  | nil => rfl
  | cons e bs ih =>
    show (lg.emitRecord e.val >>= fun _ => playAll (emitPassed lg) bs) = _
    rw [ih]
    rfl

theorem emits_asCalls {lg : Logger τ} (bs : List (TypedEmit lg)) :
    (asCalls bs).filterMap Call.emit? = bs.map Subtype.val := by
  unfold asCalls
  rw [List.filterMap_map, ← List.filterMap_eq_map]
  rfl

theorem asCalls_only {lg : Logger τ} (bs : List (TypedEmit lg)) :
    ∀ c ∈ asCalls bs, c.emit? ≠ none := by
  intro c hc
  obtain ⟨e, -, rfl⟩ := List.mem_map.mp hc
  exact Option.some_ne_none _

/-- **The ledger behind the gate.** Threads log while others, or they themselves, move the
thresholds, in any interleaving. What they decide, each as its calls do, is a sequence in which a
load finds what the last store to its slot has left. When all threads have returned, the emits
that passed balance: each is a record or a counted drop, the records of one thread in its order,
and the calls that did not pass have left nothing. -/
theorem gated_ledger [Fintype τ] [DecidableEq τ] (L : Launch lg) (slots : Slot → UInt8)
    {calls : τ → List (GatedCall lg)}
    {p : Pool (Sum.elim Op.Answer GateOp.Answer) τ (State τ × (Slot → UInt8)) Unit}
    (hrun : Reachable (gatedSem lg) (gatedPool L slots calls) p) (hfinished : p.Finished)
    (hwrap : p.shared.1.trace.countP Event.isDrop < lg.counterWrap) :
    ∃ decisions : List (τ × Decision lg), LoadsAgree slots decisions ∧
      p.shared.2 = slotsAfter slots decisions ∧
      (∀ t, ∃ rows, List.Forall₂ GatedCall.Decides (calls t) rows ∧
        notesOf t decisions = rows.flatten) ∧
      ∃ r recs d log, ∃ fate : τ → List Outcome,
        openImage (image lg.segment p.shared.1.mapped) = .ok r ∧
        decodeAll Decoder.fresh r = .ok (recs, d) ∧
        recs.length + p.shared.1.dropped = ∑ t, (piecesOf t decisions).length ∧
        d.undecodable = 0 ∧ d.skipped = 0 ∧
        (∀ t, List.Forall₂ lg.OutcomeOf ((piecesOf t decisions).map Subtype.val) (fate t)) ∧
        p.shared.1.dropped = ∑ t, ((fate t).filterMap droppedOf).length ∧
        List.Forall₂ (DeliversFrom lg) log recs ∧
        (∀ t, (log.filter fun x => x.1 = t).map Prod.snd = (fate t).filterMap writtenOf) ∧
        recs.Pairwise fun a b => a.recordOffset < b.recordOffset := by
  obtain ⟨l, rest, q, hasked, hreach, hshared, hreturned⟩ :=
    woven_returned hrun Finset.univ fun t _ => hfinished t
  obtain ⟨hslots, hloads⟩ := asked_slots hasked
  -- a run of the emits that passed
  have hcode : (fun t => playAll (emitPassed lg) (piecesOf t l)) =
      fun t => lg.thread (asCalls (piecesOf t l)) := funext fun t => playAll_asCalls (piecesOf t l)
  rw [hcode] at hreach
  have hfinished' : q.Finished := fun t => ⟨(), (hreturned t (Finset.mem_univ t)).2⟩
  obtain ⟨hinv, hreturned'⟩ := Launch.finished (L := L) hreach hfinished'
  rw [← hshared] at hwrap ⊢
  obtain ⟨r, recs, d, log, fate, hopen, hdecode, hcount, hundecodable, hskipped, hfate, hdropped,
    hdelivers, hthreads, hsorted⟩ :=
    ledger_of_returned hinv (fun t => asCalls_only (piecesOf t l)) hreturned' hwrap
  refine ⟨l, hloads, hslots, fun t => ?_, r, recs, d, log, fate, hopen, hdecode, ?_, hundecodable,
    hskipped, fun t => ?_, hdropped, hdelivers, hthreads, hsorted⟩
  · obtain ⟨a, ha⟩ := (hreturned t (Finset.mem_univ t)).1
    exact Prog.Does.notes (fun t => script_decides (calls t)) hasked ha
  · rw [hcount]
    exact Finset.sum_congr rfl fun t _ => List.length_map _
  · rw [← emits_asCalls]
    exact hfate t

end Passing

/-- One answer each operation may give. -/
def gatedAnswer [DecidableEq τ] (lg : Logger τ) (t : τ) :
    (i : Op ⊕ GateOp) → State τ × (Slot → UInt8) →
      Sum.elim Op.Answer GateOp.Answer i × (State τ × (Slot → UInt8))
  | .inl op, s => ((answer lg t op s.1).1, (answer lg t op s.1).2, s.2)
  | .inr (.loadThreshold e), s => (s.2 (siteSlot lg e), s)
  | .inr (.storeThreshold slot severity), s => ((), s.1, Function.update s.2 slot severity)

theorem gatedSem_answer [DecidableEq τ] (lg : Logger τ) (t : τ) (i : Op ⊕ GateOp)
    (s : State τ × (Slot → UInt8)) :
    gatedSem lg t i s (gatedAnswer lg t i s).1 (gatedAnswer lg t i s).2 := by
  cases i with
  | inl op => exact ⟨sem_answer lg t op s.1, rfl⟩
  | inr op =>
    cases op with
    | loadThreshold e => exact ⟨⟨rfl, rfl⟩, rfl⟩
    | storeThreshold slot severity => exact ⟨rfl, rfl⟩

theorem bare_typed (site : UInt64) (scope : UInt64) :
    (smallLogger 3 plainSite).Typed ⟨site, [], scope⟩ := rfl

/-- Three call sites of one severity: the second one is below the threshold. -/
def steeredCalls (_ : Unit) : List (GatedCall (smallLogger 3 plainSite)) :=
  [.log ⟨16, [], 0⟩ (bare_typed 16 0), .setThreshold 3, .log ⟨16, [], 9⟩ (bare_typed 16 9),
    .setSubsystemThreshold 0 2, .log ⟨16, [], 4⟩ (bare_typed 16 4)]

/-- Where they start. -/
def steeredStart : Pool (Sum.elim Op.Answer GateOp.Answer) Unit
    (State Unit × (Slot → UInt8)) Unit :=
  gatedPool (smallLaunch three_chunks plainSite) (fun _ => 0) steeredCalls

/-- Where they end. -/
def steeredRun : Pool (Sum.elim Op.Answer GateOp.Answer) Unit
    (State Unit × (Slot → UInt8)) Unit :=
  ⟨((steeredStart.prog ()).exec (gatedAnswer (smallLogger 3 plainSite) ())
    steeredStart.shared).2, Function.update steeredStart.prog () (.ret ())⟩

theorem steeredRun_reachable :
    Reachable (gatedSem (smallLogger 3 plainSite)) steeredStart steeredRun :=
  (exec_reachable (gatedSem_answer (smallLogger 3 plainSite) ()) steeredStart).reachable

theorem gated_ledger_steered :
    ∃ decisions : List (Unit × Decision (smallLogger 3 plainSite)),
      LoadsAgree (fun _ => 0) decisions ∧
      steeredRun.shared.2 = slotsAfter (fun _ => 0) decisions ∧
      (∀ t, ∃ rows, List.Forall₂ GatedCall.Decides (steeredCalls t) rows ∧
        notesOf t decisions = rows.flatten) ∧
      ∃ r recs d log, ∃ fate : Unit → List Outcome,
        openImage (image (smallLogger 3 plainSite).segment steeredRun.shared.1.mapped) = .ok r ∧
        decodeAll Decoder.fresh r = .ok (recs, d) ∧
        recs.length + steeredRun.shared.1.dropped = ∑ t, (piecesOf t decisions).length ∧
        d.undecodable = 0 ∧ d.skipped = 0 ∧
        (∀ t, List.Forall₂ (smallLogger 3 plainSite).OutcomeOf
          ((piecesOf t decisions).map Subtype.val) (fate t)) ∧
        steeredRun.shared.1.dropped = ∑ t, ((fate t).filterMap droppedOf).length ∧
        List.Forall₂ (DeliversFrom (smallLogger 3 plainSite)) log recs ∧
        (∀ t, (log.filter fun x => x.1 = t).map Prod.snd = (fate t).filterMap writtenOf) ∧
        recs.Pairwise fun a b => a.recordOffset < b.recordOffset :=
  gated_ledger (smallLaunch (by decide) plainSite) (fun _ => 0) steeredRun_reachable
    (fun _ => ⟨(), rfl⟩) (by decide +kernel)

end Sub0Log.System
