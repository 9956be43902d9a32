import Sub0Log.Abi.Host
import Sub0Log.Producer.Effects

/-!
# What a call through the table does

`CallEffects` lists what each call of a thread may do, whatever the other threads and the
hosts' rebinds do meanwhile: it finds a Logger bound or not, and on that Logger writes a
definition, writes a Message or counts a drop, never two of them.
**`calls_accounted`** says so of every thread in every interleaving.
-/

open Interleaving

namespace Sub0Log.Abi

open Wire Producer SiteAnnounceTable

variable {κ τ : Type}

/-! ### The record of a thread -/

/-- The claim of a chunk. -/
def HostEvent.isClaim : HostEvent κ τ → Bool
  | logged _ e => e.claim?.isSome
  | active _ _ | threshold _ _ _ | message _ _ _ => false

/-- What an operation adds to the trace, claims apart. -/
def HostOp.effects (t : τ) : (op : HostOp κ) → op.Answer → List (HostEvent κ τ)
  | .logger k op, answer => (op.effects t answer).map (.logged k)
  | .publish k op m, answer => (op.effects t answer).map (.logged k) ++ [.message t k m]
  | .loadActive, found => [.active t found]
  | .loadThreshold k _, value => [.threshold t k value]
  | .storeActive _, _ | .currentCorrelation, _ | .loadSiteId _, _ | .claimSiteId _ _, _
  | .loadGeneration _, _ | .storeGeneration _ _, _ | .countExhausted, _ | .loadUnbound, _
  | .incrementUnbound, _ => []

/-- The events of a Logger's producer, as the host's trace has them. -/
theorem filter_logged (k : κ) (new : List (Event τ)) :
    (new.map (HostEvent.logged k)).filter (fun e => !e.isClaim) =
      (deeds new).map (HostEvent.logged k) := by
  rw [List.filter_map]
  refine congrArg _ (List.filter_congr fun e _ => ?_)
  exact Option.not_isSome _

section Record

variable [DecidableEq τ]

/-- What thread `t` did, claims apart. -/
def HostState.deeds (s : HostState κ τ) (t : τ) : List (HostEvent κ τ) :=
  (s.trace.filter fun e => e.thread = t).filter fun e => !e.isClaim

variable [DecidableEq κ] {lg : κ → Logger τ} {t : τ} {s s' : HostState κ τ}

/-- What an operation of the producer's code notes. -/
theorem OnLogger.trace {k : κ} {op : Op} {r : op.Answer} {after : List (HostEvent κ τ)}
    (h : OnLogger lg t k op s r after s') :
    ∃ new, s'.trace = s.trace ++ (new.map (.logged k) ++ after) ∧
      (∀ e ∈ new, Event.thread e = t) ∧ Producer.deeds new = op.effects t r := by
  obtain ⟨v, new, hstep, htrace, rfl⟩ := h
  obtain ⟨new', htrace', hown, hdeeds⟩ := trace_effects hstep
  obtain rfl : new = new' := List.append_cancel_left (htrace.symm.trans htrace')
  exact ⟨new, List.append_assoc _ _ _, hown, hdeeds⟩

/-- The events of a step are its thread's, and claims apart they are its effects. -/
theorem host_trace {op : HostOp κ} {r : op.Answer} (h : sem lg t op s r s') :
    ∃ added, s'.trace = s.trace ++ added ∧ (∀ e ∈ added, HostEvent.thread e = t) ∧
      added.filter (fun e => !e.isClaim) = op.effects t r := by
  have hsilent : s'.trace = s.trace → ∃ added, s'.trace = s.trace ++ added ∧
      (∀ e ∈ added, HostEvent.thread e = t) ∧ added.filter (fun e => !e.isClaim) = [] := fun heq =>
    ⟨[], by rw [heq, List.append_nil], fun _ he => absurd he List.not_mem_nil, rfl⟩
  have hown : ∀ (k : κ) (new : List (Event τ)), (∀ e ∈ new, Event.thread e = t) →
      ∀ e ∈ new.map (HostEvent.logged k), HostEvent.thread e = t := by
    intro k new hnew e he
    obtain ⟨e', he', rfl⟩ := List.mem_map.mp he
    exact hnew e' he'
  have hone : ∀ e : HostEvent κ τ, e.thread = t → ∀ e' ∈ [e], HostEvent.thread e' = t := by
    intro e he e' hmem
    rw [List.mem_singleton.mp hmem]
    exact he
  cases op with
  | logger k op =>
    obtain ⟨new, htrace, hnew, hdeeds⟩ := OnLogger.trace (show OnLogger lg t k op s r [] s' from h)
    rw [List.append_nil] at htrace
    refine ⟨_, htrace, hown k new hnew, ?_⟩
    rw [filter_logged, hdeeds]
    rfl
  | publish k op m =>
    obtain ⟨new, htrace, hnew, hdeeds⟩ :=
      OnLogger.trace (show OnLogger lg t k op s r [.message t k m] s' from h)
    refine ⟨_, htrace, fun e he => ?_, ?_⟩
    · rcases List.mem_append.mp he with he | he
      · exact hown k new hnew e he
      · exact hone _ rfl e he
    · rw [List.filter_append, filter_logged, hdeeds]
      rfl
  | loadActive =>
    obtain ⟨-, rfl⟩ : r = s.active ∧ s' = { s with trace := s.trace ++ [.active t r] } := h
    exact ⟨_, rfl, hone _ rfl, rfl⟩
  | loadThreshold k subsystem =>
    obtain rfl : s' = { s with trace := s.trace ++ [.threshold t k r] } := h
    exact ⟨_, rfl, hone _ rfl, rfl⟩
  | loadSiteId | loadGeneration | loadUnbound => exact hsilent (by rw [(show s' = s from h.2)])
  | currentCorrelation => exact hsilent (by rw [(show s' = s from h)])
  | claimSiteId slot siteId =>
    have hs : s' = (s.claimSiteId slot siteId).2 := congrArg Prod.snd h
    refine hsilent ?_
    rw [hs]
    unfold HostState.claimSiteId
    split <;> rfl
  | storeActive | storeGeneration | countExhausted | incrementUnbound =>
    exact hsilent (by rw [(show s' = _ from h)])

/-- **Every step** adds its effects to the record of the thread that makes it. -/
theorem deeds_step {op : HostOp κ} {r : op.Answer} (h : sem lg t op s r s') :
    s'.deeds t = s.deeds t ++ op.effects t r ∧ ∀ t', t' ≠ t → s'.deeds t' = s.deeds t' := by
  obtain ⟨added, htrace, hown, heffects⟩ := host_trace h
  unfold HostState.deeds
  rw [htrace]
  constructor
  · rw [List.filter_append, List.filter_append,
      List.filter_eq_self.mpr fun e he => decide_eq_true (hown e he), heffects]
  · intro t' hne
    have hnone : added.filter (fun e => e.thread = t') = [] :=
      List.filter_eq_nil_iff.mpr fun e he heq =>
        hne ((of_decide_eq_true heq).symm.trans (hown e he))
    rw [List.filter_append, hnone, List.append_nil]

end Record

/-! ### Calls -/

/-- What a call does. A definition or a Message that was cut is counted besides. -/
inductive CallEffects (t : τ) : HostCall κ → List (HostEvent κ τ) → Prop
  | rebind (k : Option κ) : CallEffects t (.rebind k) []
  | null : CallEffects t (.emitRecord none) []
  | defineUnbound (d : SiteDefinition) : CallEffects t (.defineSite d) [.active t none]
  | defined (d : SiteDefinition) (k : κ) (a : Nat) (cut : Bool) :
      CallEffects t (.defineSite d) (.active t (some k) ::
        .logged k (.committed t a (.definition d)) :: (cutEvents t cut).map (.logged k))
  | undefined (d : SiteDefinition) (k : κ) :
      CallEffects t (.defineSite d) [.active t (some k), .logged k (.dropped t none)]
  | emitUnbound (r : AbiRecord) : CallEffects t (.emitRecord (some r)) [.active t none]
  | below (r : AbiRecord) (k : κ) (value : UInt8) (h : r.severity < value) :
      CallEffects t (.emitRecord (some r)) [.active t (some k), .threshold t k value]
  | dropped (r : AbiRecord) (k : κ) (value : UInt8) (h : value ≤ r.severity) :
      CallEffects t (.emitRecord (some r))
        [.active t (some k), .threshold t k value, .logged k (.dropped t none)]
  | written (r : AbiRecord) (k : κ) (value : UInt8) (h : value ≤ r.severity)
      (monoNs correlationId : UInt64) :
      CallEffects t (.emitRecord (some r)) (.active t (some k) :: .threshold t k value ::
        .message t k ⟨r.siteId, monoNs, correlationId, r.encoded, r.payloadTruncated⟩ ::
          (cutEvents t r.payloadTruncated).map (.logged k))

variable {t : τ}

/-- The program has these effects for thread `t`. -/
abbrev HostDoes {α : Type} (t : τ) (x : HostCode κ α)
    (Q : α → List (HostEvent κ τ) → Prop) : Prop := x.Does (HostOp.effects t) Q

/-- The producer's code has the effects it has. -/
theorem onLogger_does {α : Type} {x : Code α} {Q : α → List (Event τ) → Prop} (k : κ)
    (hx : Does t x Q) :
    HostDoes t (onLogger k x) fun a l => ∃ l', Q a l' ∧ l = l'.map (.logged k) := by
  induction x generalizing Q with
  | ret a => exact ⟨[], hx, rfl⟩
  | op i next ih =>
    refine fun r => (ih r (hx r)).mono fun a l hl => ?_
    obtain ⟨l', hQ, rfl⟩ := hl
    exact ⟨_, hQ, List.map_append.symm⟩

theorem onLogger_silent {α : Type} {x : Code α} (k : κ) (hx : Silent t x) :
    HostDoes t (onLogger k x) fun _ l => l = [] := by
  refine (onLogger_does k hx).mono fun a l hl => ?_
  obtain ⟨l', rfl, rfl⟩ := hl
  rfl

/-- An operation that leaves nothing in the trace and stores no head word. -/
def HostOp.Plain : HostOp κ → Prop
  | .logger _ op => op.Plain
  | .publish _ _ _ | .loadActive | .loadThreshold _ _ => False
  | .storeActive _ | .currentCorrelation | .loadSiteId _ | .claimSiteId _ _ | .loadGeneration _
  | .storeGeneration _ _ | .countExhausted | .loadUnbound | .incrementUnbound => True

/-- Code of such operations. -/
abbrev HostPlain {α : Type} (x : HostCode κ α) : Prop := x.Only HostOp.Plain

theorem HostPlain.silent {α : Type} {x : HostCode κ α} (h : HostPlain x) :
    HostDoes t x fun _ l => l = [] := by
  refine Prog.Only.silent h fun op hplain r => ?_
  cases op with
  | logger k op =>
    exact congrArg (List.map (HostEvent.logged k)) (Op.Plain.effects (show op.Plain from hplain) r)
  | publish | loadActive | loadThreshold => exact absurd hplain id
  | _ => rfl

theorem onLogger_plain {α : Type} {x : Code α} (k : κ) (hx : Plain x) :
    HostPlain (onLogger k x) := by
  induction x with
  | ret a => exact trivial
  | op i next ih => exact ⟨hx.1, fun r => ih r (hx.2 r)⟩

theorem countUnboundEmit_plain : HostPlain (κ := κ) countUnboundEmit := by
  refine Prog.Only.bind (Prog.Only.perform trivial) fun count => ?_
  split
  · exact Prog.Only.perform trivial
  · exact trivial

theorem generationFrom_plain (siteId : UInt64) (tries : Nat) (slot : UInt64) :
    HostPlain (κ := κ) (generationFrom siteId tries slot) := by
  induction tries generalizing slot with
  | zero => exact Prog.Only.bind (Prog.Only.perform trivial) fun _ => trivial
  | succ tries ih =>
    refine Prog.Only.bind (Prog.Only.perform trivial) fun key => ?_
    split
    · exact Prog.Only.perform trivial
    · split
      · exact trivial
      · exact ih _

theorem recordFrom_plain (siteId generation : UInt64) (tries : Nat) (slot : UInt64) :
    HostPlain (κ := κ) (recordFrom siteId generation tries slot) := by
  induction tries generalizing slot with
  | zero => exact Prog.Only.perform trivial
  | succ tries ih =>
    refine Prog.Only.bind (Prog.Only.perform trivial) fun expected => ?_
    split
    · exact Prog.Only.perform trivial
    · exact ih _

theorem storeEncoded_plain (k : κ) (r : AbiRecord) (slot : Reservation) :
    HostPlain (storeEncoded k r slot) := by
  unfold storeEncoded
  cases r.payload with
  | none => exact trivial
  | some bytes =>
    show HostPlain (if 0 < r.writtenBytes then _ else _)
    split
    · exact onLogger_plain k (copyBytes_plain _ _)
    · exact trivial

variable (lg : κ → Logger τ)

/-- `sub0logAbiHostDefineSite`. -/
theorem defineSite_does (d : SiteDefinition) :
    HostDoes t (defineSite lg d) fun _ => CallEffects t (.defineSite d) := by
  refine Prog.Does.bind_of (Prog.Does.perform HostOp.loadActive) fun found l hl => ?_
  subst hl
  cases found with
  | none =>
    refine Prog.Does.mono countUnboundEmit_plain.silent fun _ l hl => ?_
    rw [hl]
    exact .defineUnbound d
  | some k =>
    refine Prog.Does.bind_of (onLogger_does k (writeSiteDefinitionCore_does d none))
      fun written l hl => ?_
    obtain ⟨l', heffects, rfl⟩ := hl
    cases written with
    | true =>
      obtain ⟨a, cut, rfl⟩ := heffects
      refine Prog.Does.mono (recordFrom_plain _ _ _ _).silent fun _ l hl => ?_
      rw [hl, List.append_nil]
      exact .defined d k a cut
    | false =>
      obtain rfl : l' = [.dropped t none] := heffects
      exact .undefined d k

theorem commitMessage_does (k : κ) (slot : Reservation) (flags : UInt8) (totalBytes : Nat)
    (m : Message) :
    HostDoes t (commitMessage lg k slot flags totalBytes m) fun _ l => l = [.message t k m] := by
  unfold commitMessage
  by_cases hsplit : (lg k).split = true
  · simp only [if_pos hsplit]
    have hlow : ∀ half, Silent t (storeLow32 slot.headWord half) := fun _ => Prog.Does.perform _
    exact Prog.Does.after_silent (onLogger_silent k (hlow _)) fun _ => Prog.Does.perform _
  · simp only [if_neg hsplit]
    exact Prog.Does.perform _

/-- The part of `sub0logAbiHostEmit` behind its reservation. -/
theorem storeMessage_does (k : κ) (r : AbiRecord) (slot : Reservation) :
    HostDoes t (storeMessage lg k r slot) fun _ l => ∃ monoNs correlationId, l =
      .message t k ⟨r.siteId, monoNs, correlationId, r.encoded, r.payloadTruncated⟩ ::
        (cutEvents t r.payloadTruncated).map (.logged k) := by
  refine Prog.Does.after_silent (Prog.Does.perform _) fun scope => ?_
  refine Prog.Does.after_silent (onLogger_silent k (Prog.Does.perform _)) fun monoNs => ?_
  refine Prog.Does.after_silent (onLogger_silent k (copyBytes_plain _ _).silent) fun _ => ?_
  refine Prog.Does.after_silent (storeEncoded_plain k r slot).silent fun _ => ?_
  refine Prog.Does.bind_of (commitMessage_does lg k slot _ _ _) fun _ l hl => ?_
  refine Prog.Does.mono (onLogger_does k (countTruncationIf_does _)) fun _ l' hl' => ?_
  obtain ⟨l'', rfl, rfl⟩ := hl'
  rw [hl]
  exact ⟨monoNs, (lg k).correlation scope, rfl⟩

/-- `sub0logAbiHostEmit`. -/
theorem emitRecord_does (record : Option AbiRecord) :
    HostDoes t (emitRecord lg record) fun _ => CallEffects t (.emitRecord record) := by
  cases record with
  | none => exact .null
  | some r =>
    refine Prog.Does.bind_of (Prog.Does.perform HostOp.loadActive) fun found l hl => ?_
    subst hl
    cases found with
    | none =>
      refine Prog.Does.mono countUnboundEmit_plain.silent fun _ l hl => ?_
      rw [hl]
      exact .emitUnbound r
    | some k =>
      refine Prog.Does.bind_of (Prog.Does.perform (HostOp.loadThreshold k r.subsystem))
        fun value l hl => ?_
      subst hl
      by_cases hbelow : r.severity < value
      · simp only [if_pos hbelow]
        exact .below r k value hbelow
      have habove : value ≤ r.severity := UInt8.not_lt.mp hbelow
      simp only [if_neg hbelow]
      refine Prog.Does.after_silent (generationFrom_plain _ _ _).silent fun generation => ?_
      split
      · -- not announced into this segment
        refine Prog.Does.mono (onLogger_does k (Prog.Does.perform (Op.countDrop none)))
          fun _ l hl => ?_
        obtain ⟨l', rfl, rfl⟩ := hl
        exact .dropped r k value habove
      · refine Prog.Does.bind_of (onLogger_does k (reserveRecord_does _ none))
          fun slot l hl => ?_
        obtain ⟨l', hslot, rfl⟩ := hl
        cases slot with
        | none =>
          obtain rfl : l' = [.dropped t none] := hslot
          exact .dropped r k value habove
        | some slot =>
          obtain rfl : l' = [] := hslot
          refine Prog.Does.mono (storeMessage_does lg k r slot) fun _ l hl => ?_
          obtain ⟨monoNs, correlationId, rfl⟩ := hl
          exact .written r k value habove monoNs correlationId

theorem call_does (c : HostCall κ) : HostDoes t (call lg c) fun _ => CallEffects t c := by
  cases c with
  | defineSite d => exact defineSite_does lg d
  | emitRecord record => exact emitRecord_does lg record
  | rebind k =>
    refine Prog.Does.mono (Prog.Does.perform (HostOp.storeActive k)) fun _ l hl => ?_
    rw [hl]
    exact .rebind k

/-- All calls of a thread. -/
theorem thread_does (calls : List (HostCall κ)) :
    HostDoes t (thread lg calls) fun _ l =>
      ∃ rows, List.Forall₂ (CallEffects t) calls rows ∧ l = rows.flatten := by
  induction calls with
  | nil => exact ⟨[], .nil, rfl⟩
  | cons c calls ih =>
    refine Prog.Does.bind_of (call_does lg c) fun _ l hl => ih.mono fun _ l' hl' => ?_
    obtain ⟨rows, hrows, rfl⟩ := hl'
    exact ⟨l :: rows, .cons hl hrows, rfl⟩

/-- **What every thread did** when it has returned from its calls, the others being
anywhere in theirs. -/
theorem calls_accounted [DecidableEq κ] [DecidableEq τ] {calls : τ → List (HostCall κ)}
    {start : HostState κ τ} (hstart : start.trace = [])
    {p : Pool (ι := HostOp κ) HostOp.Answer τ (HostState κ τ) Unit}
    (hrun : Reachable (sem lg) ⟨start, fun t => thread lg (calls t)⟩ p) {t : τ}
    (hreturned : p.prog t = .ret ()) :
    ∃ rows, List.Forall₂ (CallEffects t) (calls t) rows ∧ p.shared.deeds t = rows.flatten := by
  have hdoes := Prog.Does.reachable HostState.deeds
    (Q := fun t _ l => ∃ rows, List.Forall₂ (CallEffects t) (calls t) rows ∧ l = rows.flatten)
    (fun t i s r s' h => deeds_step h) (fun t => ?_) hrun t
  · rw [hreturned] at hdoes
    obtain ⟨rows, hrows, heq⟩ := hdoes
    rw [List.append_nil] at heq
    exact ⟨rows, hrows, heq⟩
  · have hnil : start.deeds t = [] := by
      unfold HostState.deeds
      rw [hstart]
      rfl
    show (thread lg (calls t)).Does _ fun _ l => ∃ rows, _ ∧ start.deeds t ++ l = _
    rw [hnil]
    exact thread_does lg (calls t)

end Sub0Log.Abi
