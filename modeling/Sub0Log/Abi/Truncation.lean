import Sub0Log.Abi.Effects
import Sub0Log.Producer.Truncation

/-!
# What a plugin's calls flag and count

The host runs the producer's code for a definition, and its own for a Message, on whichever
Logger is bound; the notes here are those about one Logger `k`. **`host_accounted`**: a call of
the table leaves paired notes on every Logger, the one it runs on and the others.
-/

open Bytes Interleaving

namespace Sub0Log.Abi

open Wire Producer SiteAnnounceTable

variable {κ τ : Type} [DecidableEq κ]

/-- What is noted of an operation, on Logger `k`. -/
def HostOp.headNotes (k : κ) : (op : HostOp κ) → op.Answer → List HeadNote
  | .logger k' op, r => if k' = k then op.headNotes r else []
  | .publish k' op _, r => if k' = k then op.headNotes r else []
  | .loadActive, _ | .storeActive _, _ | .loadThreshold _ _, _ | .currentCorrelation, _
  | .loadSiteId _, _ | .claimSiteId _ _, _ | .loadGeneration _, _ | .storeGeneration _ _, _
  | .countExhausted, _ | .loadUnbound, _ | .incrementUnbound, _ => []

/-- The code leaves such notes about Logger `k`. -/
abbrev HostNotes {α : Type} (k : κ) (x : HostCode κ α) (Q : α → List HeadNote → Prop) : Prop :=
  x.Does (HostOp.headNotes k) Q

abbrev HostAccounted {α : Type} (k : κ) (x : HostCode κ α) : Prop := HostNotes k x fun _ => Paired

variable {k : κ}

theorem HostPlain.unnoted {α : Type} {x : HostCode κ α} (h : HostPlain x) :
    HostNotes k x fun _ l => l = [] := by
  refine Prog.Only.silent h fun op hplain r => ?_
  cases op with
  | logger k' op =>
    show (if k' = k then op.headNotes r else []) = []
    rw [Op.Plain.headNotes (show op.Plain from hplain) r]
    exact ite_self _
  | publish | loadActive | loadThreshold => exact absurd hplain id
  | _ => rfl

/-- The producer's code leaves its notes on the Logger it runs on, and none on another. -/
theorem onLogger_notes {α : Type} {x : Code α} {Q : α → List HeadNote → Prop} (k' : κ)
    (hx : Notes x Q) : HostNotes k (onLogger k' x) fun a l => ∃ l', Q a l' ∧ l = if k' = k then l' else [] := by
  induction x generalizing Q with
  | ret a => exact ⟨[], hx, (ite_self _).symm⟩
  | op i next ih =>
    refine fun r => (ih r (hx r)).mono fun a l hl => ?_
    obtain ⟨l', hQ, rfl⟩ := hl
    refine ⟨_, hQ, ?_⟩
    show (if k' = k then i.headNotes r else []) ++ _ = _
    split <;> rfl

theorem onLogger_accounted {α : Type} {x : Code α} (k' : κ) (hx : Accounted x) :
    HostAccounted k (onLogger k' x) := by
  refine (onLogger_notes k' hx).mono fun a l hl => ?_
  obtain ⟨l', hpaired, rfl⟩ := hl
  split
  · exact hpaired
  · exact Paired.nil

theorem onLogger_unnoted {α : Type} {x : Code α} (k' : κ) (hx : Notes x fun _ l => l = []) :
    HostNotes k (onLogger k' x) fun _ l => l = [] := by
  refine (onLogger_notes k' hx).mono fun a l hl => ?_
  obtain ⟨l', rfl, rfl⟩ := hl
  exact ite_self _

theorem HostAccounted.bind {α β : Type} {x : HostCode κ α} {f : α → HostCode κ β}
    (hx : HostAccounted k x) (hf : ∀ a, HostAccounted k (f a)) : HostAccounted k (x >>= f) :=
  Prog.Does.bind_of hx fun a _ hl => (hf a).mono fun _ _ hl' => hl.append hl'

variable (lg : κ → Logger τ)

theorem commitMessage_notes (k' : κ) (slot : Reservation) (flags : UInt8) (totalBytes : Nat)
    (m : Message) :
    HostNotes k (commitMessage lg k' slot flags totalBytes m) fun _ l => l =
      if k' = k then headNotes (lg k').split
        (RecordHead.mk (UInt16.ofNat totalBytes) .message flags slot.sequence).pack else [] := by
  unfold commitMessage headNotes
  by_cases hsplit : (lg k').split = true
  · simp only [if_pos hsplit]
    refine Prog.Does.bind_of (onLogger_notes k' (Prog.Does.perform (Op.storeLow32 slot.headWord _)))
      fun _ l hl => ?_
    obtain ⟨l', rfl, rfl⟩ := hl
    refine Prog.Does.mono (Prog.Does.perform (HostOp.publish k' (.storeHigh32 slot.headWord _ none) m))
      fun _ l hl => ?_
    rw [hl]
    show _ ++ (if k' = k then _ else _) = _
    split <;> rfl
  · simp only [if_neg hsplit]
    exact Prog.Does.perform (HostOp.publish k' (.store64 slot.headWord _ none) m)

/-- The part of `sub0logAbiHostEmit` behind its reservation. -/
theorem storeMessage_accounted (k' : κ) (r : AbiRecord) (slot : Reservation) :
    HostAccounted k (storeMessage lg k' r slot) := by
  refine Prog.Does.after_silent (Prog.Does.perform _) fun scope => ?_
  refine Prog.Does.after_silent (onLogger_unnoted k' (Prog.Does.perform _)) fun monoNs => ?_
  refine Prog.Does.after_silent (onLogger_unnoted k' (copyBytes_plain _ _).unnoted) fun _ => ?_
  refine Prog.Does.after_silent (storeEncoded_plain k' r slot).unnoted fun _ => ?_
  refine Prog.Does.bind_of (commitMessage_notes lg k' slot _ _ _) fun _ l hl => ?_
  refine (onLogger_notes k' (countTruncationIf_notes _)).mono fun _ l' hl' => ?_
  obtain ⟨l'', rfl, rfl⟩ := hl'
  rw [hl]
  by_cases hk : k' = k
  · rw [if_pos hk, if_pos hk]
    exact paired_record (Or.inl rfl) (fun _ h => by cases h) (truncated_read r.payloadTruncated)
  · rw [if_neg hk, if_neg hk]
    exact Paired.nil

/-- `sub0logAbiHostEmit`. -/
theorem emitRecord_accounted (record : Option AbiRecord) :
    HostAccounted k (emitRecord lg record) := by
  cases record with
  | none => exact Paired.nil
  | some r =>
    refine Prog.Does.after_silent (Prog.Does.perform _) fun found => ?_
    cases found with
    | none =>
      refine Prog.Does.mono countUnboundEmit_plain.unnoted fun _ l hl => ?_
      rw [hl]
      exact Paired.nil
    | some k' =>
      refine Prog.Does.after_silent (Prog.Does.perform _) fun value => ?_
      by_cases hbelow : r.severity < value
      · simp only [if_pos hbelow]
        exact Paired.nil
      simp only [if_neg hbelow]
      refine Prog.Does.after_silent (generationFrom_plain _ _ _).unnoted fun generation => ?_
      split
      · refine onLogger_accounted k' (Prog.Does.mono (Prog.Does.perform _) fun _ l hl => ?_)
        rw [hl]
        exact Paired.nil
      · refine Prog.Does.after_silent (onLogger_unnoted k' (reserveRecord_unnoted _ none))
          fun slot => ?_
        cases slot with
        | none => exact Paired.nil
        | some slot => exact storeMessage_accounted lg k' r slot

/-- `sub0logAbiHostDefineSite`. -/
theorem defineSite_accounted (d : SiteDefinition) : HostAccounted k (defineSite lg d) := by
  refine Prog.Does.after_silent (Prog.Does.perform _) fun found => ?_
  cases found with
  | none =>
    refine Prog.Does.mono countUnboundEmit_plain.unnoted fun _ l hl => ?_
    rw [hl]
    exact Paired.nil
  | some k' =>
    refine HostAccounted.bind (onLogger_accounted k' (writeSiteDefinitionCore_accounted d none))
      fun written => ?_
    split
    · refine Prog.Does.mono (recordFrom_plain _ _ _ _).unnoted fun _ l hl => ?_
      rw [hl]
      exact Paired.nil
    · exact Paired.nil

/-- **Every call of the table** counts what it flags. -/
theorem host_accounted (c : HostCall κ) : HostAccounted k (call lg c) := by
  cases c with
  | defineSite d => exact defineSite_accounted lg d
  | emitRecord record => exact emitRecord_accounted lg record
  | rebind k' =>
    refine Prog.Does.mono (Prog.Does.perform _) fun _ l hl => ?_
    rw [hl]
    exact Paired.nil

/-! ### The counter -/

section Counter

variable [DecidableEq τ] {lg : κ → Logger τ} {t : τ} {s s' : HostState κ τ} {n : Nat}

/-- An operation on a Logger moves the counter of that Logger. -/
theorem OnLogger.truncated {k' : κ} {op : Op} {r : op.Answer} {after : List (HostEvent κ τ)}
    (h : OnLogger lg t k' op s r after s')
    (hn : (s.logs k).truncated = n % (lg k).counterWrap) :
    (s'.logs k).truncated =
      (n + (if k' = k then op.headNotes r else []).countP HeadNote.isCounted) %
        (lg k).counterWrap := by
  obtain ⟨v, new, hsem, -, rfl⟩ := h
  show (Function.update s.logs k' v k).truncated = _
  by_cases hk : k' = k
  · subst hk
    rw [Function.update_self, if_pos rfl]
    exact truncated_step hsem hn
  · rw [Function.update_of_ne (Ne.symm hk), if_neg hk]
    exact hn

theorem host_truncated {op : HostOp κ} {r : op.Answer} (h : sem lg t op s r s')
    (hn : (s.logs k).truncated = n % (lg k).counterWrap) :
    (s'.logs k).truncated =
      (n + (op.headNotes k r).countP HeadNote.isCounted) % (lg k).counterWrap := by
  have hsame : s'.logs = s.logs → (s'.logs k).truncated = (n + 0) % (lg k).counterWrap := by
    intro heq
    rw [heq]
    exact hn
  cases op with
  | logger k' op => exact OnLogger.truncated (show OnLogger lg t k' op s r [] s' from h) hn
  | publish k' op m =>
    exact OnLogger.truncated (show OnLogger lg t k' op s r [.message t k' m] s' from h) hn
  | loadActive | loadSiteId | loadGeneration | loadUnbound => exact hsame (by rw [h.2])
  | claimSiteId slot siteId =>
    have hs : s' = (s.claimSiteId slot siteId).2 := congrArg Prod.snd h
    refine hsame ?_
    rw [hs]
    unfold HostState.claimSiteId
    split <;> rfl
  | loadThreshold | currentCorrelation | storeActive | storeGeneration | countExhausted
  | incrementUnbound => exact hsame (by rw [(show s' = _ from h)])

end Counter

end Sub0Log.Abi
