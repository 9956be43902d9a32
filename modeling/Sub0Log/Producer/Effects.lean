import Sub0Log.Producer.Rules

/-!
# What the writing functions do to the trace

What a function of the producer publishes or counts, claims apart, does not depend on the
state it runs in: `Op.effects` says it of an operation, `Prog.Does` of a program. Most
code is of operations that leave nothing in the trace (`Plain`). A
reservation is silent, or it is the drop that is counted for it (`reserveRecord_does`); a
definition is written, and then the function says so, or dropped
(`writeSiteDefinitionCore_does`). Nothing here is about memory, so it holds of any
interleaving, also of code that runs on several Loggers.
-/

open Bytes Interleaving

namespace Sub0Log.Producer

open Wire

variable {τ : Type}

/-- What an operation adds to the trace, claims apart. -/
def Op.effects (t : τ) : (op : Op) → op.Answer → List (Event τ)
  | .store64 address _ publishes, _ => publication t address publishes
  | .storeHigh32 address _ publishes, _ => publication t address publishes
  | .countDrop emit, _ => [.dropped t emit]
  | .countTruncation, _ => [.truncated t]
  | .loadKey _, _ | .storeKey _ _, _ | .claimChunkIndex, _ | .currentThreadId, _
  | .monotonicNow, _ | .loadCache, _ | .storeCache _, _ | .copyOrder _, _ | .storeByte _ _, _
  | .storeLow32 _ _, _ => []

/-- The events of a step are its thread's, and claims apart they are its effects. -/
theorem trace_effects [DecidableEq τ] {lg : Logger τ} {t : τ} {op : Op} {s s' : State τ}
    {r : op.Answer} (h : sem lg t op s r s') :
    ∃ new, s'.trace = s.trace ++ new ∧ (∀ e ∈ new, Event.thread e = t) ∧
      deeds new = op.effects t r := by
  have hnone : s'.trace = s.trace → ∃ new, s'.trace = s.trace ++ new ∧
      (∀ e ∈ new, Event.thread e = t) ∧ deeds new = [] := fun heq =>
    ⟨[], by rw [heq, List.append_nil], fun _ he => absurd he List.not_mem_nil, rfl⟩
  have hone : ∀ e, Event.thread e = t → ∀ e' ∈ [e], Event.thread e' = t := by
    intro e he e' hmem
    rw [List.mem_singleton.mp hmem]
    exact he
  have hpublication : ∀ a w, (∀ e ∈ publication t a w, Event.thread e = t) ∧
      deeds (publication t a w) = publication t a w := by
    intro a w
    cases w with
    | none => exact ⟨fun _ he => absurd he List.not_mem_nil, rfl⟩
    | some w => exact ⟨hone _ rfl, rfl⟩
  cases op with
  | claimChunkIndex =>
    have hs : s' = (claimChunkIndex lg t s).2 := congrArg Prod.snd h
    subst hs
    unfold claimChunkIndex
    split
    · exact ⟨_, rfl, hone _ rfl, rfl⟩
    · split <;>
        exact ⟨[], (List.append_nil _).symm, fun _ he => absurd he List.not_mem_nil, rfl⟩
  | loadKey | currentThreadId | loadCache | copyOrder =>
    exact hnone (by rw [(show s' = s from h.2)])
  | monotonicNow => exact hnone (by rw [(show s' = s from h)])
  | storeKey | storeCache | storeByte | storeLow32 =>
    exact hnone (by rw [(show s' = _ from h)])
  | store64 a word w =>
    obtain rfl : s' = _ := h
    exact ⟨_, rfl, hpublication _ _⟩
  | storeHigh32 a half w =>
    obtain rfl : s' = _ := h
    exact ⟨_, rfl, hpublication _ _⟩
  | countDrop emit =>
    obtain rfl : s' = _ := h
    exact ⟨_, rfl, hone _ rfl, rfl⟩
  | countTruncation =>
    obtain rfl : s' = _ := h
    exact ⟨_, rfl, hone _ rfl, rfl⟩

/-- The program has these effects for thread `t`. -/
abbrev Does {α : Type} (t : τ) (x : Code α) (Q : α → List (Event τ) → Prop) : Prop :=
  x.Does (Op.effects t) Q

/-- It has none. -/
abbrev Silent {α : Type} (t : τ) (x : Code α) : Prop := Does t x fun _ l => l = []

variable {t : τ} {lg : Logger τ}

/-! ### Silent code -/

/-- An operation that neither stores a head word nor counts. -/
def Op.Plain : Op → Prop
  | .store64 _ _ _ | .storeLow32 _ _ | .storeHigh32 _ _ _ | .countDrop _ | .countTruncation => False
  | .loadKey _ | .storeKey _ _ | .claimChunkIndex | .currentThreadId | .monotonicNow | .loadCache
  | .storeCache _ | .copyOrder _ | .storeByte _ _ => True

/-- Code of such operations. -/
abbrev Plain {α : Type} (x : Code α) : Prop := x.Only Op.Plain

theorem Op.Plain.effects {op : Op} (h : op.Plain) (r : op.Answer) : op.effects t r = [] := by
  cases op with
  | store64 | storeLow32 | storeHigh32 | countDrop | countTruncation => exact absurd h id
  | _ => rfl

theorem Plain.silent {α : Type} {x : Code α} (h : Plain x) : Silent t x :=
  Prog.Only.silent h fun _ hplain r => hplain.effects r

theorem storeBytes_plain (a : Nat) (bytes : List UInt8) (order : List Nat) :
    Plain (storeBytes a bytes order) := by
  induction order with
  | nil => exact trivial
  | cons i rest ih => exact Prog.Only.bind (Prog.Only.perform trivial) fun _ => ih

theorem copyBytes_plain (a : Nat) (bytes : List UInt8) : Plain (copyBytes a bytes) :=
  Prog.Only.bind (Prog.Only.perform trivial) fun order => storeBytes_plain a bytes order

theorem claimChunk_plain : Plain lg.claimChunk := by
  refine Prog.Only.bind (Prog.Only.perform trivial) fun index => ?_
  split
  · exact trivial
  · refine Prog.Only.bind (Prog.Only.perform trivial) fun owner => ?_
    refine Prog.Only.bind (Prog.Only.perform trivial) fun time => ?_
    exact Prog.Only.bind (copyBytes_plain _ _) fun _ => trivial

theorem refillWriter_plain : Plain lg.refillWriter := by
  refine Prog.Only.bind claimChunk_plain fun w => ?_
  exact Prog.Only.bind (Prog.Only.perform trivial) fun _ => trivial

theorem currentWriter_plain : Plain lg.currentWriter := by
  refine Prog.Only.bind (Prog.Only.perform trivial) fun cache => ?_
  split
  · exact refillWriter_plain
  · exact trivial

theorem remaining_plain : Plain remaining :=
  Prog.Only.bind (Prog.Only.perform trivial) fun _ => trivial

theorem reserve_plain (n : Nat) : Plain (reserve n) := by
  refine Prog.Only.bind (Prog.Only.perform trivial) fun cache => ?_
  cases cache.writer.reserve n with
  | none => exact trivial
  | some slot => exact Prog.Only.bind (Prog.Only.perform trivial) fun _ => trivial

theorem tryReserve_plain (writer : Bool) (n : Nat) : Plain (tryReserve writer n) := by
  cases writer with
  | true => exact reserve_plain n
  | false => exact trivial

/-! ### Head words, drops and cuts -/

theorem storeHeadWord_does (a word : Nat) (publishes : Option Written) :
    Does t (lg.storeHeadWord a word publishes) fun _ l => l = publication t a publishes := by
  unfold Logger.storeHeadWord
  split
  · exact Prog.Does.after_silent (Prog.Does.perform _) fun _ => Prog.Does.perform _
  · exact Prog.Does.perform _

theorem countTruncationIf_does (cut : Bool) :
    Does t (Logger.countTruncationIf cut) fun _ l => l = cutEvents t cut := by
  cases cut with
  | true => exact Prog.Does.perform _
  | false => exact rfl

/-- A drop, and what is returned then. -/
theorem dropped_does {α : Type} (onDrop : Option Emit) (a : α) :
    Does t (countDrop onDrop >>= fun _ => pure a) fun b l => b = a ∧ l = [.dropped t onDrop] :=
  Prog.Does.bind_of (Prog.Does.perform _) fun _ _ hl => ⟨rfl, by rw [hl]; rfl⟩

/-- `reserveRecord`: silent, or the drop that is counted. -/
theorem reserveRecord_does (n : Nat) (onDrop : Option Emit) :
    Does t (lg.reserveRecord n onDrop) fun slot l =>
      if slot.isSome then l = [] else l = [.dropped t onDrop] := by
  refine Prog.Does.after_silent currentWriter_plain.silent fun b => ?_
  refine Prog.Does.after_silent (tryReserve_plain b n).silent fun slot => ?_
  cases slot with
  | some slot => exact rfl
  | none =>
    refine Prog.Does.after_silent refillWriter_plain.silent fun b => ?_
    refine Prog.Does.after_silent (tryReserve_plain b n).silent fun slot => ?_
    cases slot with
    | some slot => exact rfl
    | none =>
      refine (dropped_does onDrop none).mono fun slot l hdrop => ?_
      rw [hdrop.1]
      exact hdrop.2

/-! ### Definitions -/

/-- What writing a definition does, whether it says so or not. -/
def DefinitionEffects (t : τ) (d : SiteDefinition) (onDrop : Option Emit) (written : Bool)
    (l : List (Event τ)) : Prop :=
  if written then ∃ a cut, l = .committed t a (.definition d) :: cutEvents t cut
  else l = [.dropped t onDrop]

theorem storeDefinition_does (d : SiteDefinition) (onDrop : Option Emit) (slot : Reservation)
    (lengths : Nat × Nat × Bool) :
    Does t (lg.storeDefinition d slot lengths) (DefinitionEffects t d onDrop) := by
  refine Prog.Does.after_silent (copyBytes_plain _ _).silent fun _ => ?_
  refine Prog.Does.bind_of (storeHeadWord_does _ _ _) fun _ l hl => ?_
  refine Prog.Does.bind_of (countTruncationIf_does _) fun _ l' hl' => ?_
  refine ⟨slot.headWord, lengths.2.2, ?_⟩
  rw [hl, hl']
  exact congrArg _ (List.append_nil _)

/-- `writeSiteDefinitionCore`. -/
theorem writeSiteDefinitionCore_does (d : SiteDefinition) (onDrop : Option Emit) :
    Does t (lg.writeSiteDefinitionCore d onDrop) (DefinitionEffects t d onDrop) := by
  have hdropped : Does t (countDrop onDrop >>= fun _ => pure false)
      (DefinitionEffects t d onDrop) := by
    refine (dropped_does onDrop false).mono fun b l hdrop => ?_
    rw [hdrop.1]
    exact hdrop.2
  refine Prog.Does.after_silent currentWriter_plain.silent fun b => ?_
  refine Prog.Does.after_silent (tryReserve_plain b _).silent fun slot => ?_
  cases slot with
  | some slot => exact storeDefinition_does d onDrop slot _
  | none =>
    refine Prog.Does.after_silent refillWriter_plain.silent fun b => ?_
    cases b with
    | false => exact hdropped
    | true =>
      refine Prog.Does.after_silent (reserve_plain _).silent fun slot => ?_
      cases slot with
      | some slot => exact storeDefinition_does d onDrop slot _
      | none =>
        -- the strings are cut
        refine Prog.Does.after_silent remaining_plain.silent fun left => ?_
        refine Prog.Does.after_silent (reserve_plain _).silent fun slot => ?_
        cases slot with
        | some slot => exact storeDefinition_does d onDrop slot _
        | none => exact hdropped

end Sub0Log.Producer
