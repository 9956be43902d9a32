import Sub0Log.Producer.Chain

/-!
# What a call does

The contracts of the writing functions, from `reserveRecord` up to `thread`. Each says what
the call adds to its thread's history, claims apart (`deeds`): a definition is written or
dropped (`DefinitionDeeds`), a Message is written or dropped (`MessageDeeds`), and an emit
does the one, the other or both (`EmitDeeds`). Between two calls a thread is `Idle`.
-/

open Bytes Interleaving

namespace Sub0Log.Producer

open Wire

variable {τ : Type}

/-! ### What calls add to a history -/

/-- What writing a definition does; the Bool is what it returns. -/
inductive DefinitionDeeds (seg : Segment) (t : τ) (d : SiteDefinition) (onDrop : Option Emit) :
    Bool → List (Event τ) → Prop
  | dropped : DefinitionDeeds seg t d onDrop false [.dropped t onDrop]
  | written (a : Nat) : DefinitionDeeds seg t d onDrop true
      ([.committed t a (.definition d)] ++ cutEvents t (d.lengths seg.capacity).2.2)

/-- What the part of an emit behind the site's announcement does. -/
inductive MessageDeeds (lg : Logger τ) (t : τ) (e : Emit) : List (Event τ) → Prop
  | dropped : MessageDeeds lg t e [.dropped t (some e)]
  | written (a : Nat) (m : Emission) (outcome : lg.OutcomeOf e (.written m)) :
      MessageDeeds lg t e
        ([.committed t a (.message m)] ++ cutEvents t (m.anyTruncated lg.segment.capacity))

/-- What an emit does. -/
inductive EmitDeeds (lg : Logger τ) (t : τ) (e : Emit) : List (Event τ) → Prop
  | announced {new : List (Event τ)} (message : MessageDeeds lg t e new) : EmitDeeds lg t e new
  | refused {new : List (Event τ)} (definition : DefinitionDeeds lg.segment t
      ((lg.sites e.site).definition e.site) (some e) false new) : EmitDeeds lg t e new
  | defined {new new' : List (Event τ)} (definition : DefinitionDeeds lg.segment t
      ((lg.sites e.site).definition e.site) (some e) true new)
      (message : MessageDeeds lg t e new') : EmitDeeds lg t e (new ++ new')

theorem outcomes_cutEvents (t : τ) (cut : Bool) : outcomes (cutEvents t cut) = [] := by
  cases cut <;> rfl

theorem deeds_cutEvents (t : τ) (cut : Bool) : deeds (cutEvents t cut) = cutEvents t cut := by
  cases cut <;> rfl

theorem MessageDeeds.outcomes {lg : Logger τ} {t : τ} {e : Emit} {new : List (Event τ)}
    (hnew : MessageDeeds lg t e new) : ∃ o, lg.OutcomeOf e o ∧ outcomes new = [o] := by
  cases hnew with
  | dropped => exact ⟨.dropped e, rfl, rfl⟩
  | written a m houtcome =>
    refine ⟨.written m, houtcome, ?_⟩
    rw [outcomes_append, outcomes_cutEvents]
    rfl

/-- An emit has one outcome. -/
theorem EmitDeeds.outcomes {lg : Logger τ} {t : τ} {e : Emit} {new : List (Event τ)}
    (hnew : EmitDeeds lg t e new) : ∃ o, lg.OutcomeOf e o ∧ outcomes new = [o] := by
  cases hnew with
  | announced hmessage => exact hmessage.outcomes
  | refused hdefinition =>
    cases hdefinition
    exact ⟨.dropped e, rfl, rfl⟩
  | defined hdefinition hmessage =>
    obtain ⟨o, ho, heq⟩ := hmessage.outcomes
    refine ⟨o, ho, ?_⟩
    cases hdefinition
    rw [outcomes_append, outcomes_append, outcomes_cutEvents, heq]
    rfl

namespace Setting

variable (S : Setting τ)

/-- The next emit of `t`, `h` being its history, may be `e`. -/
def Awaits (t : τ) (h : List (Event τ)) (e : Emit) : Prop :=
  ∀ o, S.lg.OutcomeOf e o → S.lg.Follows (S.emits t) (outcomes h ++ [o])

/-- A drop may be counted. -/
def MayDrop (t : τ) (h : List (Event τ)) : Option Emit → Prop
  | none => ¬S.OnlyEmits
  | some e => S.Awaits t h e

variable {S} {t : τ} {h h' : List (Event τ)} {c : Nat} {s s' : State τ}

theorem Awaits.of_outcomes {e : Emit} (hawaits : S.Awaits t h e)
    (heq : outcomes h' = outcomes h) : S.Awaits t h' e := by
  intro o ho
  rw [heq]
  exact hawaits o ho

theorem MayDrop.of_outcomes {onDrop : Option Emit} (hmay : S.MayDrop t h onDrop)
    (heq : outcomes h' = outcomes h) : S.MayDrop t h' onDrop := by
  cases onDrop with
  | none => exact hmay
  | some e => exact Awaits.of_outcomes hmay heq

theorem outcomes_congr (hdeeds : deeds h' = deeds h) : outcomes h' = outcomes h := by
  rw [← outcomes_deeds, hdeeds, outcomes_deeds]

/-- Two steps, one behind the other. -/
theorem deeds_step {new : List (Event τ)} (hdeeds : deeds h' = deeds h)
    (hnew : deeds new = new) : deeds (h' ++ new) = deeds h ++ new := by
  rw [deeds_append, hdeeds, hnew]

/-- The writer of an empty chunk has room for what fits one. -/
theorem fits_fresh {n : Nat} (hnil : writtenIn S.lg.segment c h = []) :
    (S.writerAt h c).Fits n ↔ fitsEmpty S.lg.segment.capacity n := by
  rw [writerAt_nil hnil]
  unfold ChunkWriter.Fits fitsEmpty
  rw [Nat.zero_add]

/-- What fits behind records fits an empty chunk. -/
theorem fitsEmpty_of_fits {n : Nat} (hfits : (S.writerAt h c).Fits n) :
    fitsEmpty S.lg.segment.capacity n :=
  ⟨hfits.1, le_trans (Nat.le_add_left _ _) hfits.2⟩

/-- A chain that fits behind records fits an empty chunk. -/
theorem slots_of_fitsChain {args : List Arg} (hfits : (S.writerAt h c).FitsChain args)
    {m : Emission} (hargs : m.args = args) :
    m.slots S.lg.segment.capacity = contSlots args ∧
      m.anyTruncated S.lg.segment.capacity = args.any fun a => a.isBytes && a.overCeiling := by
  obtain ⟨hmessage, hroom⟩ := hfits
  have hcapacity : chainBytes args ≤ S.lg.segment.capacity :=
    le_trans (Nat.le_add_left _ _) hroom
  have hchained : m.chained S.lg.segment.capacity = true := by
    unfold Emission.chained
    rw [hargs, Bool.and_eq_true, decide_eq_true_eq, decide_eq_true_eq]
    exact ⟨⟨hmessage, le_trans (Nat.le_add_right _ _) hcapacity⟩, hcapacity⟩
  unfold Emission.slots Emission.anyTruncated
  rw [hchained, hargs]
  exact ⟨rfl, rfl⟩

/-- A chain that does not fit an empty chunk is given up. -/
theorem slots_of_not_fitsChain {args : List Arg} (hnil : writtenIn S.lg.segment c h = [])
    (hnot : ¬(S.writerAt h c).FitsChain args) {m : Emission} (hargs : m.args = args) :
    m.slots S.lg.segment.capacity = [] ∧ m.anyTruncated S.lg.segment.capacity = true := by
  have hchained : m.chained S.lg.segment.capacity = false := by
    refine Bool.eq_false_iff.mpr fun htrue => hnot ?_
    unfold Emission.chained at htrue
    rw [hargs, Bool.and_eq_true, decide_eq_true_eq, decide_eq_true_eq] at htrue
    rw [writerAt_nil hnil]
    refine ⟨htrue.1.1, ?_⟩
    show 0 + chainBytes args ≤ S.lg.segment.capacity
    rw [Nat.zero_add]
    exact htrue.2
  unfold Emission.slots Emission.anyTruncated
  rw [hchained]
  exact ⟨rfl, rfl⟩

theorem chainFits_of_fitsChain {args : List Arg} (hfits : (S.writerAt h c).FitsChain args) :
    S.ChainFits h c args (contSlots args) :=
  ⟨hfits.1, hfits.2, fun _ hslot => continuationPayloadBytes_le hslot⟩

/-- The Message alone, its chain given up. -/
theorem chainFits_of_fits {args : List Arg}
    (hfits : (S.writerAt h c).Fits (messagePayloadBytes args)) : S.ChainFits h c args [] :=
  ⟨hfits.1, hfits.2, fun _ hslot => by cases hslot⟩

/-- A pack of fixed-size arguments has no chain, and none of it is cut. -/
theorem slots_fixed {args : List Arg} (hfixed : cHasByteArg args = false)
    (hfits : (S.writerAt h c).Fits (messagePayloadBytes args)) {m : Emission}
    (hargs : m.args = args) :
    m.slots S.lg.segment.capacity = [] ∧ m.anyTruncated S.lg.segment.capacity = false := by
  have hchain : (S.writerAt h c).FitsChain args := by
    refine ⟨hfits.1, ?_⟩
    rw [chainBytes_eq, contSlots_fixed hfixed]
    exact hfits.2
  obtain ⟨hslots, hcut⟩ := slots_of_fitsChain hchain hargs
  refine ⟨hslots.trans (contSlots_fixed hfixed), hcut.trans ?_⟩
  refine List.any_eq_false.mpr fun a ha hover => ?_
  rw [Bool.and_eq_true] at hover
  exact (List.any_eq_false.mp hfixed a ha) hover.1

variable [DecidableEq τ]

/-- A drop is counted. -/
theorem drop_meets {onDrop : Option Emit} (hmay : S.MayDrop t h onDrop) :
    S.Meets t (S.Idle t h) (countDrop onDrop) fun _ => S.Idle t (h ++ [.dropped t onDrop]) := by
  refine countDrop_meets (fun hnone => ?_) fun e hsome => ?_
  · subst hnone
    exact hmay
  · subst hsome
    exact hmay (.dropped e) rfl

/-! ### Reservations -/

theorem Fetched.idle {fresh : Prop} {b : Bool} (hP : S.Fetched fresh t h b s) :
    S.Idle t h s := by
  rcases hP with ⟨-, c, -, hready⟩ | ⟨-, hidle⟩
  · exact hready.idle
  · exact hidle

/-- A reservation from a writer that may be null. -/
theorem tryReserve_meets {fresh : Prop} (b : Bool) (n : Nat) :
    S.Meets t (S.Fetched fresh t h b) (tryReserve b n) fun r s =>
      (∃ c, ((fresh → writtenIn S.lg.segment c h = []) ∧ (S.writerAt h c).Fits n ∧
          r = some (S.writerAt h c).slot) ∧ S.Ready t h c ((S.writerAt h c).advance n) s) ∨
      (r = none ∧ S.Idle t h s) := by
  refine Spec.Triple.of_or ?_ ?_
  · refine Spec.Triple.of_pure fun hb => Spec.Triple.of_exists fun c =>
      Spec.Triple.of_pure fun hfresh => ?_
    subst hb
    refine Spec.Triple.conseq (reserve_meets n) (fun _ _ hP => hP) fun r s _ hP => ?_
    rcases hP with ⟨⟨hfits, hr⟩, hready⟩ | ⟨⟨-, hr⟩, hready⟩
    · exact Or.inl ⟨c, ⟨hfresh, hfits, hr⟩, hready⟩
    · exact Or.inr ⟨hr, hready.idle⟩
  · refine Spec.Triple.of_pure fun hb => ?_
    subst hb
    exact Spec.Triple.pure fun s _ hP => Or.inr ⟨rfl, hP⟩

/-- `reserveRecord`: a reservation, or the drop that is counted for it. -/
theorem reserveRecord_meets {onDrop : Option Emit} (n : Nat) (hmay : S.MayDrop t h onDrop) :
    S.Meets t (S.Idle t h) (S.lg.reserveRecord n onDrop) fun r s =>
      (∃ h' c, (deeds h' = deeds h ∧ (S.writerAt h' c).Fits n ∧
          r = some (S.writerAt h' c).slot) ∧ S.Ready t h' c ((S.writerAt h' c).advance n) s) ∨
      (∃ h', (deeds h' = deeds h ++ [.dropped t onDrop] ∧ r = none) ∧ S.Idle t h' s) := by
  refine Spec.Triple.bind currentWriter_meets fun b => Spec.Triple.of_exists fun h₁ =>
    Spec.Triple.of_pure fun hdeeds₁ => ?_
  refine Spec.Triple.bind (tryReserve_meets b n) fun r => Spec.Triple.of_or ?_ ?_
  · refine Spec.Triple.of_exists fun c => Spec.Triple.of_pure fun ⟨_, hfits, hr⟩ => ?_
    subst hr
    exact Spec.Triple.pure fun s _ hP => Or.inl ⟨h₁, c, ⟨hdeeds₁, hfits, rfl⟩, hP⟩
  · refine Spec.Triple.of_pure fun hr => ?_
    subst hr
    refine Spec.Triple.bind refillWriter_meets fun b => Spec.Triple.of_exists fun h₂ =>
      Spec.Triple.of_pure fun hdeeds₂ => ?_
    have hdeeds : deeds h₂ = deeds h := hdeeds₂.trans hdeeds₁
    refine Spec.Triple.bind (tryReserve_meets b n) fun r => Spec.Triple.of_or ?_ ?_
    · refine Spec.Triple.of_exists fun c => Spec.Triple.of_pure fun ⟨_, hfits, hr⟩ => ?_
      subst hr
      exact Spec.Triple.pure fun s _ hP => Or.inl ⟨h₂, c, ⟨hdeeds, hfits, rfl⟩, hP⟩
    · refine Spec.Triple.of_pure fun hr => ?_
      subst hr
      refine Spec.Triple.bind (drop_meets (hmay.of_outcomes (outcomes_congr hdeeds))) fun _ =>
        Spec.Triple.pure fun s _ hP => Or.inr ⟨_, ⟨?_, rfl⟩, hP⟩
      exact deeds_step hdeeds rfl

/-! ### Definitions -/

/-- The part of `writeSiteDefinitionCore` behind its reservation. -/
theorem storeDefinition_meets {d : SiteDefinition} {lengths : Nat × Nat × Bool}
    (hlengths : lengths = d.lengths S.lg.segment.capacity)
    (hfits : (S.writerAt h c).Fits
      (definitionPayloadBytes d.typeCodes.length lengths.1 lengths.2.1))
    (hexpected : S.Expected (.definition d)) :
    S.Meets t (S.Ready t h c ((S.writerAt h c).advance
        (definitionPayloadBytes d.typeCodes.length lengths.1 lengths.2.1)))
      (S.lg.storeDefinition d (S.writerAt h c).slot lengths) fun b s => b = true ∧
        S.Idle t (h ++ [.committed t (S.frontierAt h c) (.definition d)] ++
          cutEvents t (d.lengths S.lg.segment.capacity).2.2) s := by
  subst hlengths
  obtain ⟨hformat, hfile⟩ := d.lengths_le S.lg.segment.capacity
  rw [← d.payload_length hformat hfile] at hfits ⊢
  have hrecord := @storeRecord_meets τ S t h c (.definition d) _ .siteDefinition
    (if (d.lengths S.lg.segment.capacity).2.2 then cFlagTruncated else 0) _ rfl hfits
    (fun code heq => by cases heq) hexpected (fun m heq => by cases heq)
  refine Spec.Triple.assoc (Spec.Triple.bind (Spec.Triple.conseq hrecord
    (fun s _ hP => ⟨hP, fun m heq => by cases heq⟩) fun _ _ _ hQ => hQ) fun _ => ?_)
  refine Spec.Triple.bind (countTruncationIf_meets _) fun _ => ?_
  exact Spec.Triple.pure fun s _ hP => ⟨rfl, hP⟩

/-- A definition that was reserved is written. -/
theorem definition_written {d : SiteDefinition} {onDrop : Option Emit}
    {lengths : Nat × Nat × Bool} (hdeeds : deeds h' = deeds h)
    (hlengths : lengths = d.lengths S.lg.segment.capacity)
    (hfits : (S.writerAt h' c).Fits
      (definitionPayloadBytes d.typeCodes.length lengths.1 lengths.2.1))
    (hexpected : S.Expected (.definition d)) :
    S.Meets t (S.Ready t h' c ((S.writerAt h' c).advance
        (definitionPayloadBytes d.typeCodes.length lengths.1 lengths.2.1)))
      (S.lg.storeDefinition d (S.writerAt h' c).slot lengths) fun b s =>
      ∃ h'' new, (deeds h'' = deeds h ++ new ∧
        DefinitionDeeds S.lg.segment t d onDrop b new) ∧ S.Idle t h'' s := by
  refine Spec.Triple.conseq (storeDefinition_meets hlengths hfits hexpected)
    (fun _ _ hP => hP) fun b s _ hP => ?_
  obtain ⟨rfl, hidle⟩ := hP
  refine ⟨_, _, ⟨?_, DefinitionDeeds.written (S.frontierAt h' c)⟩, hidle⟩
  rw [List.append_assoc]
  refine deeds_step hdeeds ?_
  rw [deeds_append, deeds_cutEvents]
  rfl

/-- The whole definition was reserved. -/
theorem whole_written {d : SiteDefinition} {onDrop : Option Emit} (hdeeds : deeds h' = deeds h)
    (hfits : (S.writerAt h' c).Fits d.wholeBytes) (hexpected : S.Expected (.definition d)) :
    S.Meets t (S.Ready t h' c ((S.writerAt h' c).advance d.wholeBytes))
      (S.lg.storeDefinition d (S.writerAt h' c).slot (d.format.length, d.file.length, false))
      fun b s => ∃ h'' new, (deeds h'' = deeds h ++ new ∧
        DefinitionDeeds S.lg.segment t d onDrop b new) ∧ S.Idle t h'' s := by
  have hlengths : (d.format.length, d.file.length, false) = d.lengths S.lg.segment.capacity := by
    unfold SiteDefinition.lengths
    rw [if_pos (fitsEmpty_of_fits hfits)]
  unfold SiteDefinition.wholeBytes at hfits ⊢
  have hwrite := @definition_written τ S t h h' c _ d onDrop _ hdeeds hlengths hfits hexpected
  exact hwrite

/-- A definition that cannot be reserved is dropped. -/
theorem definition_dropped {d : SiteDefinition} {onDrop : Option Emit}
    (hdeeds : deeds h' = deeds h) (hmay : S.MayDrop t h onDrop) :
    S.Meets t (S.Idle t h') (countDrop onDrop >>= fun _ => pure false) fun b s =>
      ∃ h'' new, (deeds h'' = deeds h ++ new ∧
        DefinitionDeeds S.lg.segment t d onDrop b new) ∧ S.Idle t h'' s := by
  refine Spec.Triple.bind (drop_meets (hmay.of_outcomes (outcomes_congr hdeeds))) fun _ =>
    Spec.Triple.pure fun s _ hP => ⟨_, _, ⟨?_, DefinitionDeeds.dropped⟩, hP⟩
  exact deeds_step hdeeds rfl

/-- `writeSiteDefinitionCore`. -/
theorem writeSiteDefinitionCore_meets {d : SiteDefinition} {onDrop : Option Emit}
    (hexpected : S.Expected (.definition d)) (hmay : S.MayDrop t h onDrop) :
    S.Meets t (S.Idle t h) (S.lg.writeSiteDefinitionCore d onDrop) fun b s =>
      ∃ h' new, (deeds h' = deeds h ++ new ∧
        DefinitionDeeds S.lg.segment t d onDrop b new) ∧ S.Idle t h' s := by
  refine Spec.Triple.bind currentWriter_meets fun b => Spec.Triple.of_exists fun h₁ =>
    Spec.Triple.of_pure fun hdeeds₁ => ?_
  refine Spec.Triple.bind (tryReserve_meets b d.wholeBytes) fun r => Spec.Triple.of_or ?_ ?_
  · -- the cached chunk takes the whole definition
    refine Spec.Triple.of_exists fun c => Spec.Triple.of_pure fun ⟨_, hfits, hr⟩ => ?_
    subst hr
    exact whole_written hdeeds₁ hfits hexpected
  refine Spec.Triple.of_pure fun hr => ?_
  subst hr
  refine Spec.Triple.bind refillWriter_meets fun b => Spec.Triple.of_exists fun h₂ =>
    Spec.Triple.of_pure fun hdeeds₂ => ?_
  have hdeeds : deeds h₂ = deeds h := hdeeds₂.trans hdeeds₁
  refine Spec.Triple.of_or ?_ ?_
  · refine Spec.Triple.of_pure fun hb => Spec.Triple.of_exists fun c =>
      Spec.Triple.of_pure fun hfresh => ?_
    subst hb
    have hnil := hfresh trivial
    show S.Meets t _ (reserve d.wholeBytes >>= _) _
    refine Spec.Triple.bind (reserve_meets _) fun r => Spec.Triple.of_or ?_ ?_
    · refine Spec.Triple.of_pure fun ⟨hfits, hr⟩ => ?_
      subst hr
      exact whole_written hdeeds hfits hexpected
    · -- no chunk takes it whole
      refine Spec.Triple.of_pure fun ⟨hnot, hr⟩ => ?_
      subst hr
      refine Spec.Triple.bind remaining_meets fun left => Spec.Triple.of_pure fun hleft => ?_
      have hlengths : d.cutLengths left = d.lengths S.lg.segment.capacity := by
        have hcapacity : (S.writerAt h₂ c).remaining = S.lg.segment.capacity := by
          unfold ChunkWriter.remaining
          rw [writerAt_valid, writerAt_nil hnil]
          exact if_neg (fun hor => hor.elim (fun hfalse => by cases hfalse) (Nat.not_lt_zero _))
        rw [hleft, hcapacity]
        exact (if_neg fun hfits => hnot ((fits_fresh hnil).mpr hfits)).symm
      refine Spec.Triple.bind (reserve_meets _) fun r => Spec.Triple.of_or ?_ ?_
      · refine Spec.Triple.of_pure fun ⟨hfits, hr⟩ => ?_
        subst hr
        exact definition_written hdeeds hlengths hfits hexpected
      · refine Spec.Triple.of_pure fun ⟨_, hr⟩ => ?_
        subst hr
        exact Spec.Triple.conseq (definition_dropped hdeeds hmay)
          (fun _ _ hP => hP.idle) fun _ _ _ hQ => hQ
  · refine Spec.Triple.of_pure fun hb => ?_
    subst hb
    exact definition_dropped hdeeds hmay

/-- `writeSubsystemDefinition`. -/
theorem writeSubsystemDefinition_meets (id : UInt32) (name : List UInt8)
    (hmay : ¬S.OnlyEmits) :
    S.Meets t (S.Idle t h) (S.lg.writeSubsystemDefinition id name) fun _ s =>
      ∃ h', outcomes h' = outcomes h ∧ S.Idle t h' s := by
  have hdrop : S.MayDrop t h none := hmay
  refine Spec.Triple.bind (reserveRecord_meets _ hdrop) fun r => Spec.Triple.of_or ?_ ?_
  · refine Spec.Triple.of_exists fun h' => Spec.Triple.of_exists fun c =>
      Spec.Triple.of_pure fun ⟨hdeeds, hfits, hr⟩ => ?_
    subst hr
    have hrecord := @storeRecord_meets τ S t h' c (.subsystem id name) _ .subsystemDefinition
      (if cInlineBytesCap < name.length then cFlagTruncated else 0) _ rfl hfits
      (fun code heq => by cases heq) hmay (fun m heq => by cases heq)
    have hflags : (if decide (cInlineBytesCap < name.length) then cFlagTruncated else 0) =
        if cInlineBytesCap < name.length then cFlagTruncated else 0 := by
      simp only [decide_eq_true_eq]
    show S.Meets t _ (copyBytes _ _ >>= fun _ =>
      S.lg.commit _ _ (if decide (cInlineBytesCap < name.length) then cFlagTruncated else 0) _ _
        >>= _) _
    rw [hflags]
    refine Spec.Triple.assoc (Spec.Triple.bind (Spec.Triple.conseq hrecord
      (fun s _ hP => ⟨hP, fun m heq => by cases heq⟩) fun _ _ _ hQ => hQ) fun _ => ?_)
    refine Spec.Triple.bind (countTruncationIf_meets _) fun _ =>
      Spec.Triple.pure fun s _ hP => ⟨_, ?_, hP⟩
    rw [outcomes_append, outcomes_append, outcomes_cutEvents, outcomes_congr hdeeds,
      List.append_nil]
    exact List.append_nil _
  · refine Spec.Triple.of_exists fun h' => Spec.Triple.of_pure fun ⟨hdeeds, hr⟩ => ?_
    subst hr
    refine Spec.Triple.pure fun s _ hP => ⟨h', ?_, hP⟩
    rw [outcomes_of_deeds hdeeds]
    exact List.append_nil _

/-! ### Messages -/

/-- A reservation of a chain from a writer that may be null. -/
theorem tryReserveChain_meets {fresh : Prop} (b : Bool) (args : List Arg) :
    S.Meets t (S.Fetched fresh t h b) (tryReserveChain b args) fun r s =>
      (∃ c, ((S.writerAt h c).FitsChain args ∧ r = some ((S.writerAt h c).slot,
          ((S.writerAt h c).advance (messagePayloadBytes args)).reservations (contSlots args))) ∧
        S.Ready t h c
          (((S.writerAt h c).advance (messagePayloadBytes args)).behind (contSlots args)) s) ∨
      ((∃ c, (b = true ∧ (fresh → writtenIn S.lg.segment c h = []) ∧
          ¬(S.writerAt h c).FitsChain args ∧ r = none) ∧ S.Ready t h c (S.writerAt h c) s) ∨
        ((b = false ∧ r = none) ∧ S.Idle t h s)) := by
  refine Spec.Triple.of_or ?_ ?_
  · refine Spec.Triple.of_pure fun hb => Spec.Triple.of_exists fun c =>
      Spec.Triple.of_pure fun hfresh => ?_
    subst hb
    refine Spec.Triple.conseq (reserveChain_meets args) (fun _ _ hP => hP) fun r s _ hP => ?_
    rcases hP with ⟨⟨hfits, hr⟩, hready⟩ | ⟨⟨hnot, hr⟩, hready⟩
    · exact Or.inl ⟨c, ⟨hfits, hr⟩, hready⟩
    · exact Or.inr (Or.inl ⟨c, ⟨rfl, hfresh, hnot, hr⟩, hready⟩)
  · refine Spec.Triple.of_pure fun hb => ?_
    subst hb
    exact Spec.Triple.pure fun s _ hP => Or.inr (Or.inr ⟨⟨rfl, rfl⟩, hP⟩)

/-- A chain that was reserved is written. -/
theorem chain_written {e : Emit} {slots : List ContinuationSlot} {cut : Bool}
    (hdeeds : deeds h' = deeds h)
    (hslots : ∀ m : Emission, m.args = e.args → m.slots S.lg.segment.capacity = slots ∧
      m.anyTruncated S.lg.segment.capacity = cut)
    (hfits : S.ChainFits h' c e.args slots) (htyped : S.lg.Typed e) (hawaits : S.Awaits t h e) :
    S.Meets t
      (fun s => S.Ready t h' c
        (((S.writerAt h' c).advance (messagePayloadBytes e.args)).behind slots) s ∧
        s.Defined S.lg e.site)
      (S.lg.storeChain e (S.writerAt h' c).slot
        ((((S.writerAt h' c).advance (messagePayloadBytes e.args)).reservations slots).zip slots)
        cut)
      fun _ s => ∃ h'' new, (deeds h'' = deeds h ++ new ∧ MessageDeeds S.lg t e new) ∧
        S.Idle t h'' s := by
  refine Spec.Triple.conseq (storeChain_meets hslots hfits htyped
    (hawaits.of_outcomes (outcomes_congr hdeeds))) (fun _ _ hP => hP) fun _ s _ hP => ?_
  obtain ⟨m, ⟨houtcome, hcut⟩, hidle⟩ := hP
  subst hcut
  refine ⟨_, _, ⟨?_, MessageDeeds.written (S.frontierAt h' c) m houtcome⟩, hidle⟩
  rw [List.append_assoc]
  refine deeds_step hdeeds ?_
  rw [deeds_append, deeds_cutEvents]
  rfl

/-- A Message that cannot be reserved is dropped. -/
theorem message_dropped {e : Emit} (hdeeds : deeds h' = deeds h) (hawaits : S.Awaits t h e) :
    S.Meets t (S.Idle t h') (countDrop (some e)) fun _ s =>
      ∃ h'' new, (deeds h'' = deeds h ++ new ∧ MessageDeeds S.lg t e new) ∧ S.Idle t h'' s := by
  have hmay : S.MayDrop t h' (some e) := hawaits.of_outcomes (outcomes_congr hdeeds)
  refine Spec.Triple.conseq (drop_meets hmay) (fun _ _ hP => hP) fun _ s _ hP => ?_
  exact ⟨_, _, ⟨deeds_step hdeeds rfl, MessageDeeds.dropped⟩, hP⟩

/-- `emitChained`. -/
theorem emitChained_meets {e : Emit} (htyped : S.lg.Typed e) (hawaits : S.Awaits t h e) :
    S.Meets t (fun s => S.Idle t h s ∧ s.Defined S.lg e.site) (S.lg.emitChained e) fun _ s =>
      ∃ h' new, (deeds h' = deeds h ++ new ∧ MessageDeeds S.lg t e new) ∧ S.Idle t h' s := by
  refine Spec.Triple.bind (frame_defined e.site currentWriter_meets) fun b =>
    Spec.Triple.of_exists_frame fun h₁ => Spec.Triple.of_pure_frame fun hdeeds₁ => ?_
  refine Spec.Triple.bind (frame_defined e.site (tryReserveChain_meets b e.args)) fun r =>
    Spec.Triple.of_or_frame ?_ ?_
  · -- the cached chunk takes the chain
    refine Spec.Triple.of_exists_frame fun c => Spec.Triple.of_pure_frame fun ⟨hfits, hr⟩ => ?_
    subst hr
    exact chain_written hdeeds₁ (fun m hargs => slots_of_fitsChain hfits hargs)
      (chainFits_of_fitsChain hfits) htyped hawaits
  -- it does not: what is known of the old writer is not needed any more
  suffices hagain : r = none → S.Meets t (fun s => S.Idle t h₁ s ∧ s.Defined S.lg e.site) _ _ by
    refine Spec.Triple.conseq (Spec.Triple.of_pure hagain) (fun s _ hP => ?_) fun _ _ _ hQ => hQ
    rcases hP with ⟨⟨c, ⟨-, -, -, hr⟩, hready⟩ | ⟨⟨-, hr⟩, hidle⟩, hdefined⟩
    · exact ⟨hr, hready.idle, hdefined⟩
    · exact ⟨hr, hidle, hdefined⟩
  intro hr
  subst hr
  refine Spec.Triple.bind (frame_defined e.site refillWriter_meets) fun b =>
    Spec.Triple.of_exists_frame fun h₂ => Spec.Triple.of_pure_frame fun hdeeds₂ => ?_
  have hdeeds : deeds h₂ = deeds h := hdeeds₂.trans hdeeds₁
  refine Spec.Triple.bind (frame_defined e.site (tryReserveChain_meets b e.args)) fun r =>
    Spec.Triple.of_or_frame ?_ (Spec.Triple.of_or_frame ?_ ?_)
  · refine Spec.Triple.of_exists_frame fun c => Spec.Triple.of_pure_frame fun ⟨hfits, hr⟩ => ?_
    subst hr
    exact chain_written hdeeds (fun m hargs => slots_of_fitsChain hfits hargs)
      (chainFits_of_fitsChain hfits) htyped hawaits
  · -- an empty chunk does not take the chain either: the Message alone
    refine Spec.Triple.of_exists_frame fun c =>
      Spec.Triple.of_pure_frame fun ⟨hb, hfresh, hnot, hr⟩ => ?_
    subst hb hr
    have hnil := hfresh trivial
    show S.Meets t _ (reserve (messagePayloadBytes e.args) >>= _) _
    refine Spec.Triple.bind (frame_defined e.site (reserve_meets _)) fun r =>
      Spec.Triple.of_or_frame ?_ ?_
    · refine Spec.Triple.of_pure_frame fun ⟨hfits, hr⟩ => ?_
      subst hr
      exact chain_written hdeeds (fun m hargs => slots_of_not_fitsChain hnil hnot hargs)
        (chainFits_of_fits hfits) htyped hawaits
    · refine Spec.Triple.of_pure_frame fun ⟨_, hr⟩ => ?_
      subst hr
      exact Spec.Triple.conseq (message_dropped hdeeds hawaits) (fun _ _ hP => hP.1.idle)
        fun _ _ _ hQ => hQ
  · refine Spec.Triple.of_pure_frame fun ⟨hb, hr⟩ => ?_
    subst hb hr
    exact Spec.Triple.conseq (message_dropped hdeeds hawaits) (fun _ _ hP => hP.1)
      fun _ _ _ hQ => hQ

/-- The Message of a pack without a Bytes argument is copied and committed. -/
theorem fixed_meets {e : Emit} (hfixed : cHasByteArg e.args = false)
    (hfits : (S.writerAt h c).Fits (messagePayloadBytes e.args)) (htyped : S.lg.Typed e)
    (hawaits : S.Awaits t h e) (monoNs : UInt64) {m : Emission}
    (hm : m = ⟨e.site, monoNs, S.lg.correlation e.correlation, e.args⟩) :
    S.Meets t
      (fun s => S.Ready t h c ((S.writerAt h c).advance (messagePayloadBytes e.args)) s ∧
        s.Defined S.lg e.site)
      (copyBytes ((S.writerAt h c).slot.headWord + 8) m.payload >>= fun _ =>
        S.lg.commit (S.writerAt h c).slot .message 0 m.payload.length (some (.message m)))
      fun _ => S.Idle t (h ++ [.committed t (S.frontierAt h c) (.message m)]) := by
  have hargs : m.args = e.args := by rw [hm]
  have hsite : m.siteId = e.site := by rw [hm]
  obtain ⟨hslots, hcut⟩ := slots_fixed hfixed hfits hargs
  have hentries := nextEntries_message (S := S) h c hslots
  rw [hcut] at hentries
  rw [← hargs, ← m.payload_length] at hfits ⊢
  have hexpected : S.Expected (.message m) := by
    show m.args.map Arg.typeCode = (S.lg.sites m.siteId).argTypes
    rw [hargs, hsite]
    exact htyped
  refine Spec.Triple.conseq (storeRecord_meets hentries hfits (fun code heq => by cases heq)
    hexpected fun m' heq => ?_) (fun s _ hP => ⟨hP.1, fun m' heq => ?_⟩) fun _ _ _ hQ => hQ
  · cases heq
    exact hawaits _ (by rw [hm]; exact ⟨rfl, rfl, rfl⟩)
  · cases heq
    rw [hsite]
    exact hP.2

/-- The path of `emitRecord` for a pack without a Bytes argument. -/
theorem emitFixed_meets {e : Emit} (hfixed : cHasByteArg e.args = false)
    (htyped : S.lg.Typed e) (hawaits : S.Awaits t h e) :
    S.Meets t (fun s => S.Idle t h s ∧ s.Defined S.lg e.site) (S.lg.emitFixed e) fun _ s =>
      ∃ h' new, (deeds h' = deeds h ++ new ∧ MessageDeeds S.lg t e new) ∧ S.Idle t h' s := by
  have hbytes : sizeofMessagePayload + upperBoundSize e.args = messagePayloadBytes e.args :=
    congrArg (sizeofMessagePayload + ·) (encodeArgs_fixed 0 hfixed).2
  have hmay : S.MayDrop t h (some e) := hawaits
  unfold Logger.emitFixed
  rw [hbytes]
  refine Spec.Triple.bind (frame_defined e.site
    (reserveRecord_meets (messagePayloadBytes e.args) hmay)) fun r =>
    Spec.Triple.of_or_frame ?_ ?_
  · refine Spec.Triple.of_exists_frame fun h' => Spec.Triple.of_exists_frame fun c =>
      Spec.Triple.of_pure_frame fun hreserved => ?_
    obtain ⟨hdeeds, hfits, rfl⟩ := hreserved
    refine Spec.Triple.bind (frame_defined e.site (monotonicNow_meets ready_stable))
      fun monoNs => ?_
    -- what is encoded is the Message's payload, and nothing is cut
    have hencoded := (encodeArgs_fixed (messagePayloadBytes e.args - sizeofMessagePayload)
      hfixed).1
    simp only [hencoded]
    have hrecord := fixed_meets (t := t) hfixed hfits htyped
      (hawaits.of_outcomes (outcomes_congr hdeeds)) monoNs rfl
    refine Spec.Triple.assoc (Spec.Triple.bind hrecord fun _ => Spec.Triple.pure fun s _ hP => ?_)
    refine ⟨_, _, ⟨deeds_step hdeeds rfl, ?_⟩, hP⟩
    have hcut : Emission.anyTruncated S.lg.segment.capacity
        ⟨e.site, monoNs, S.lg.correlation e.correlation, e.args⟩ = false :=
      (slots_fixed hfixed hfits rfl).2
    have hwritten := @MessageDeeds.written τ S.lg t e (S.frontierAt h' c)
      ⟨e.site, monoNs, S.lg.correlation e.correlation, e.args⟩ ⟨rfl, rfl, rfl⟩
    rw [hcut] at hwritten
    exact hwritten
  · refine Spec.Triple.of_exists_frame fun h' =>
      Spec.Triple.of_pure_frame fun hdropped => ?_
    obtain ⟨hdeeds, rfl⟩ := hdropped
    exact Spec.Triple.pure fun s _ hP => ⟨h', _, ⟨hdeeds, MessageDeeds.dropped⟩, hP.1⟩

/-- The part of `emitRecord` behind the site's announcement. -/
theorem emitMessage_meets {e : Emit} (htyped : S.lg.Typed e) (hawaits : S.Awaits t h e) :
    S.Meets t (fun s => S.Idle t h s ∧ s.Defined S.lg e.site) (S.lg.emitMessage e) fun _ s =>
      ∃ h' new, (deeds h' = deeds h ++ new ∧ MessageDeeds S.lg t e new) ∧ S.Idle t h' s := by
  unfold Logger.emitMessage
  cases hbytes : cHasByteArg e.args with
  | true => exact emitChained_meets htyped hawaits
  | false => exact emitFixed_meets hbytes htyped hawaits

/-! ### Calls -/

/-- `emitRecord` at a site that is announced. -/
theorem emitRecord_announced {e : Emit} (htyped : S.lg.Typed e) (hawaits : S.Awaits t h e) :
    S.Meets t (fun s => S.Idle t h s ∧ s.keys e.site = S.lg.segment.announceKey)
      (S.lg.emitRecord e) fun _ s =>
      ∃ h' new, (deeds h' = deeds h ++ new ∧ MessageDeeds S.lg t e new) ∧ S.Idle t h' s := by
  have hstable : S.Stable t fun s =>
      S.Idle t h s ∧ s.keys e.site = S.lg.segment.announceKey := fun s s' henv hP =>
    ⟨idle_stable s s' henv hP.1, henv.keys e.site hP.2⟩
  refine Spec.Triple.bind (loadKey_meets hstable e.site) fun key => ?_
  suffices hmessage : key = S.lg.segment.announceKey → S.Meets t
      (fun s => S.Idle t h s ∧ s.Defined S.lg e.site) _ _ from
    Spec.Triple.conseq (Spec.Triple.of_pure hmessage)
      (fun s _ hP => ⟨hP.1.1.trans hP.2.2, hP.2.1, hP.1.2 (hP.1.1.trans hP.2.2)⟩)
      fun _ _ _ hQ => hQ
  intro hkey
  rw [if_neg (not_not_intro hkey)]
  exact emitMessage_meets htyped hawaits

/-- What was written is in the trace. -/
theorem Idle.defined {id : UInt64} {d : SiteDefinition} {onDrop : Option Emit}
    {new : List (Event τ)} (hP : S.Idle t h' s) (hdeeds : deeds h' = deeds h ++ new)
    (hnew : DefinitionDeeds S.lg.segment t d onDrop true new)
    (hd : d = (S.lg.sites id).definition id) : s.Defined S.lg id := by
  subst hd
  cases hnew with
  | written a =>
    have hmem : Event.committed t a (.definition ((S.lg.sites id).definition id)) ∈
        deeds h' := by
      rw [hdeeds]
      exact List.mem_append_right _ (List.mem_append_left _ List.mem_cons_self)
    have hhist := (List.mem_filter.mp hmem).1
    rw [← hP.hist] at hhist
    exact ⟨t, a, (State.mem_hist.mp hhist).1⟩

/-- `emitRecord`. -/
theorem emitRecord_meets {e : Emit} (htyped : S.lg.Typed e) (hawaits : S.Awaits t h e) :
    S.Meets t (S.Idle t h) (S.lg.emitRecord e) fun _ s =>
      ∃ h' new, (deeds h' = deeds h ++ new ∧ EmitDeeds S.lg t e new) ∧ S.Idle t h' s := by
  refine Spec.Triple.bind (loadKey_meets idle_stable e.site) fun key => ?_
  by_cases hkey : key = S.lg.segment.announceKey
  · rw [if_neg (not_not_intro hkey)]
    refine Spec.Triple.conseq (emitMessage_meets htyped hawaits)
      (fun s _ hP => ⟨hP.2, hP.1.2 hkey⟩) fun _ s _ hP => ?_
    obtain ⟨h', new, ⟨hdeeds, hmessage⟩, hidle⟩ := hP
    exact ⟨h', new, ⟨hdeeds, .announced hmessage⟩, hidle⟩
  · rw [if_pos hkey]
    have hexpected : S.Expected (.definition ((S.lg.sites e.site).definition e.site)) :=
      fun _ => rfl
    have hmay : S.MayDrop t h (some e) := hawaits
    refine Spec.Triple.bind (Spec.Triple.conseq (writeSiteDefinitionCore_meets hexpected hmay)
      (fun _ _ hP => hP.2) fun _ _ _ hQ => hQ) fun b =>
      Spec.Triple.of_exists fun h₁ => Spec.Triple.of_exists fun new =>
      Spec.Triple.of_pure fun ⟨hdeeds, hdefinition⟩ => ?_
    cases b with
    | false =>
      exact Spec.Triple.pure fun s _ hP => ⟨h₁, new, ⟨hdeeds, .refused hdefinition⟩, hP⟩
    | true =>
      -- the definition is in the segment before the key says so
      have hstable : S.Stable t fun s => S.Idle t h₁ s ∧ s.Defined S.lg e.site :=
        fun s s' henv hP => ⟨idle_stable s s' henv hP.1, hP.2.mono henv.trace⟩
      have hstore : S.Meets t (fun s => S.Idle t h₁ s ∧ s.Defined S.lg e.site)
          (storeKey e.site S.lg.segment.announceKey) fun _ s =>
          S.Idle t h₁ s ∧ s.Defined S.lg e.site :=
        storeKey_meets hstable (fun s hP => hP.2) fun s hP =>
          ⟨⟨⟨hP.1.hist, hP.1.quiet⟩, hP.1.cache⟩, hP.2⟩
      refine Spec.Triple.bind (Spec.Triple.conseq hstore
        (fun s _ hP => ⟨hP, hP.defined hdeeds hdefinition rfl⟩) fun _ _ _ hQ => hQ) fun _ => ?_
      have hsame : outcomes h₁ = outcomes h := by
        rw [outcomes_of_deeds hdeeds]
        cases hdefinition
        rw [outcomes_append, outcomes_cutEvents]
        exact List.append_nil _
      refine Spec.Triple.conseq (emitMessage_meets htyped (hawaits.of_outcomes hsame))
        (fun _ _ hP => hP) fun _ s _ hP => ?_
      obtain ⟨h', new', ⟨hdeeds', hmessage⟩, hidle⟩ := hP
      refine ⟨h', new ++ new', ⟨?_, .defined hdefinition hmessage⟩, hidle⟩
      rw [hdeeds', hdeeds, List.append_assoc]

/-- The outcomes of a thread are those of the emits among some of its calls. -/
def Did (t : τ) (h : List (Event τ)) (done : List (Call S.lg)) : Prop :=
  List.Forall₂ S.lg.OutcomeOf (done.filterMap Call.emit?) (outcomes h)

/-- One call. -/
theorem call_meets {done rest : List (Call S.lg)} {call : Call S.lg}
    (hcalls : S.calls t = done ++ call :: rest) (hdid : S.Did t h done) :
    S.Meets t (S.Idle t h) (S.lg.call call) fun _ s =>
      ∃ h', S.Did t h' (done ++ [call]) ∧ S.Idle t h' s := by
  have hsilent : ∀ {call' : Call S.lg} {h'}, call'.emit? = none → outcomes h' = outcomes h →
      S.Did t h' (done ++ [call']) := by
    intro call' h' hnone heq
    unfold Did
    rw [heq, filterMap_concat, hnone]
    show List.Forall₂ S.lg.OutcomeOf (done.filterMap Call.emit? ++ []) (outcomes h)
    rw [List.append_nil]
    exact hdid
  have honly : ∀ {call' : Call S.lg}, call = call' → call'.emit? = none → ¬S.OnlyEmits := by
    intro call' heq hnone hall
    refine hall t call ?_ (heq ▸ hnone)
    rw [hcalls]
    exact List.mem_append_right _ List.mem_cons_self
  cases call with
  | emit e htyped =>
    have hawaits : S.Awaits t h e := by
      intro o ho
      refine ⟨done.filterMap Call.emit? ++ [e], ?_, List.rel_append hdid (.cons ho .nil)⟩
      unfold Setting.emits
      rw [hcalls, List.filterMap_append, List.filterMap_cons]
      exact ⟨rest.filterMap Call.emit?, List.append_assoc _ _ _⟩
    refine Spec.Triple.conseq (emitRecord_meets htyped hawaits) (fun _ _ hP => hP)
      fun _ s _ hP => ?_
    obtain ⟨h', new, ⟨hdeeds, hemit⟩, hidle⟩ := hP
    obtain ⟨o, ho, hnew⟩ := hemit.outcomes
    refine ⟨h', ?_, hidle⟩
    unfold Did
    rw [outcomes_of_deeds hdeeds, hnew, filterMap_concat]
    exact List.rel_append hdid (.cons ho .nil)
  | declareSubsystem id name =>
    refine Spec.Triple.bind (writeSubsystemDefinition_meets id name (honly rfl rfl)) fun _ =>
      Spec.Triple.pure fun s _ hP => ?_
    obtain ⟨h', heq, hidle⟩ := hP
    exact ⟨h', hsilent rfl heq, hidle⟩
  | defineSite d =>
    have hmay : S.MayDrop t h none := honly rfl rfl
    have hexpected : S.Expected (.definition d) := by
      refine fun hone => hone t d ?_
      rw [hcalls]
      exact List.mem_append_right _ List.mem_cons_self
    refine Spec.Triple.bind (writeSiteDefinitionCore_meets hexpected hmay) fun _ =>
      Spec.Triple.pure fun s _ hP => ?_
    obtain ⟨h', new, ⟨hdeeds, hnew⟩, hidle⟩ := hP
    refine ⟨h', hsilent rfl ?_, hidle⟩
    rw [outcomes_of_deeds hdeeds]
    cases hnew with
    | dropped => exact List.append_nil _
    | written a =>
      rw [outcomes_append, outcomes_cutEvents]
      exact List.append_nil _

/-- **All calls of a thread.** -/
theorem thread_meets {done calls : List (Call S.lg)} (hcalls : S.calls t = done ++ calls)
    (hdid : S.Did t h done) :
    S.Meets t (S.Idle t h) (S.lg.thread calls) fun _ s =>
      ∃ h', S.Did t h' (S.calls t) ∧ S.Idle t h' s := by
  induction calls generalizing done h with
  | nil =>
    rw [List.append_nil] at hcalls
    exact Spec.Triple.pure fun s _ hP => ⟨h, hcalls ▸ hdid, hP⟩
  | cons call rest ih =>
    refine Spec.Triple.bind (call_meets hcalls hdid) fun _ => Spec.Triple.of_exists fun h' =>
      Spec.Triple.of_pure fun hdid' => ?_
    refine ih ?_ hdid'
    rw [hcalls, List.append_assoc]
    rfl

end Setting

end Sub0Log.Producer
