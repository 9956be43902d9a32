import Sub0Log.System.Solo

/-!
# What a refused emit costs

An emit whose Message does not fit an empty chunk, or that finds no chunk left, is counted
as one drop. Before that the retry behind `refillWriter` has claimed a chunk, or has put the
thread's chunk away for a writer without one.

`Unchanged` is what a drop should leave behind. **`refused_unchanged_iff`** says when it
does: no chunk was left and the thread had none. `refused_claims` is a run in which the
second of two refused emits takes another chunk.
-/

open Bytes Interleaving

namespace Sub0Log.System

open Wire Reader Producer

variable {τ : Type} [DecidableEq τ] {lg : Logger τ} {t : τ} {s s' s'' : State τ}

/-! ### The current writer -/

/-- What `currentWriter` would return without claiming a chunk. -/
def currentWriter? (lg : Logger τ) (t : τ) (s : State τ) : Option ChunkWriter :=
  let cache := s.caches t
  if (cache.owner = lg.address ∧ cache.generation = lg.segment.generation) ∧
    cache.writer.valid = true then some cache.writer else none

/-- The thread's cache is this Logger's. -/
def Owned (lg : Logger τ) (t : τ) (s : State τ) : Prop :=
  (s.caches t).owner = lg.address ∧ (s.caches t).generation = lg.segment.generation

omit [DecidableEq τ] in
theorem currentWriter?_owned (h : Owned lg t s) :
    currentWriter? lg t s = if (s.caches t).writer.valid = true then some (s.caches t).writer
      else none := by
  unfold currentWriter?
  by_cases hvalid : (s.caches t).writer.valid = true
  · rw [if_pos hvalid]
    exact if_pos ⟨h, hvalid⟩
  · rw [if_neg hvalid]
    exact if_neg fun hboth => hvalid hboth.2

/-- The current writer has a chunk of this segment at most. -/
def Sized (lg : Logger τ) (t : τ) (s : State τ) : Prop :=
  ∀ w ∈ currentWriter? lg t s, w.size ≤ lg.segment.capacity

/-! ### Claims and refills -/

/-- From `s` to `s'` no drop was counted and the cursor did not go back; where no chunk was
left, nothing changed but the cursor and the thread's cache. -/
structure Passed (lg : Logger τ) (t : τ) (s s' : State τ) : Prop where
  cursor : s.cursor ≤ s'.cursor
  dropped : s'.dropped = s.dropped
  exhausted : lg.segment.chunkCount ≤ s.cursor → s'.mem = s.mem ∧ s'.keys = s.keys ∧
    s'.truncated = s.truncated ∧ ∀ t', t' ≠ t → s'.caches t' = s.caches t'

omit [DecidableEq τ] in
theorem Passed.refl (s : State τ) : Passed lg t s s :=
  ⟨Nat.le_refl _, rfl, fun _ => ⟨rfl, rfl, rfl, fun _ _ => rfl⟩⟩

omit [DecidableEq τ] in
theorem Passed.trans (h : Passed lg t s s') (h' : Passed lg t s' s'') : Passed lg t s s'' := by
  refine ⟨h.cursor.trans h'.cursor, h'.dropped.trans h.dropped, fun hfull => ?_⟩
  obtain ⟨hmem, hkeys, htruncated, hothers⟩ := h.exhausted hfull
  obtain ⟨hmem', hkeys', htruncated', hothers'⟩ := h'.exhausted (hfull.trans h.cursor)
  exact ⟨hmem'.trans hmem, hkeys'.trans hkeys, htruncated'.trans htruncated,
    fun t' hne => (hothers' t' hne).trans (hothers t' hne)⟩

/-- A copy changes the memory only. -/
theorem alone_copyBytes (address : Nat) (bytes : List UInt8) (s : State τ) :
    (copyBytes address bytes).Alone (sem lg) t
      (fun _ s' => s'.cursor = s.cursor ∧ s'.dropped = s.dropped ∧ s'.caches = s.caches) s := by
  have hstores : ∀ (order : List Nat) (s₁ : State τ), s₁.cursor = s.cursor →
      s₁.dropped = s.dropped → s₁.caches = s.caches →
      (storeBytes address bytes order).Alone (sem lg) t
        (fun _ s' => s'.cursor = s.cursor ∧ s'.dropped = s.dropped ∧ s'.caches = s.caches) s₁ := by
    intro order
    induction order with
    | nil => exact fun s₁ hcursor hdropped hcaches => ⟨hcursor, hdropped, hcaches⟩
    | cons i rest ih =>
      intro s₁ hcursor hdropped hcaches r s₂ hsem
      obtain rfl : s₂ = _ := hsem
      exact ih _ hcursor hdropped hcaches
  intro order s₁ hsem
  obtain rfl : s₁ = s := hsem.2
  exact hstores order s₁ rfl rfl rfl

/-- A claim takes the next chunk, or there is none and it takes nothing. -/
theorem alone_claimChunk (s : State τ) :
    (lg.claimChunk).Alone (sem lg) t (fun w s' => Passed lg t s s' ∧ s'.caches = s.caches ∧
      w.size ≤ lg.segment.capacity ∧ (s.cursor < lg.segment.chunkCount → s.cursor < s'.cursor) ∧
      (lg.segment.chunkCount ≤ s.cursor → w = ChunkWriter.none)) s := by
  have hindex : claimIndex.Alone (sem lg) t
      (fun index s' => (index, s') = claimChunkIndex lg t s) s := fun _ _ hsem => hsem
  refine Prog.Alone.bind hindex ?_
  intro index s₁ hclaimed
  by_cases hroom : s.cursor < lg.segment.chunkCount
  · have hclaim : claimChunkIndex lg t s = (s.cursor, { s with
        cursor := s.cursor + 1, trace := s.trace ++ [.claimed t s.cursor] }) := if_pos hroom
    rw [hclaim] at hclaimed
    obtain ⟨rfl, rfl⟩ := Prod.mk.inj hclaimed
    rw [if_neg (Nat.not_le.mpr hroom)]
    refine Prog.Alone.perform ?_
    rintro id s₂ ⟨-, rfl⟩
    refine Prog.Alone.perform ?_
    rintro monoNs s₃ hnow
    obtain rfl : s₃ = _ := hnow
    refine Prog.Alone.bind (alone_copyBytes _ _ _) ?_
    rintro - s' ⟨hcursor, hdropped, hcaches⟩
    have hlt : s.cursor < s'.cursor := hcursor ▸ Nat.lt_succ_self s.cursor
    exact ⟨⟨Nat.le_of_lt hlt, hdropped, fun hfull => absurd hroom (Nat.not_lt.mpr hfull)⟩,
      hcaches, Nat.le_refl _, fun _ => hlt, fun hfull => absurd hroom (Nat.not_lt.mpr hfull)⟩
  · -- refused, on either path
    have hclaim : ∃ cursor, s.cursor ≤ cursor ∧ claimChunkIndex lg t s =
        (lg.segment.chunkCount, { s with cursor := cursor }) := by
      unfold claimChunkIndex
      rw [if_neg hroom]
      split
      · exact ⟨s.cursor, Nat.le_refl _, rfl⟩
      · exact ⟨s.cursor + 1, Nat.le_succ _, rfl⟩
    obtain ⟨cursor, hle, hclaim⟩ := hclaim
    rw [hclaim] at hclaimed
    obtain ⟨rfl, rfl⟩ := Prod.mk.inj hclaimed
    rw [if_pos (Nat.le_refl _)]
    exact ⟨⟨hle, rfl, fun _ => ⟨rfl, rfl, rfl, fun _ _ => rfl⟩⟩, rfl, Nat.zero_le _,
      fun hroom' => absurd hroom' hroom, fun _ => rfl⟩

/-- A refill leaves the thread with the chunk it claimed, or with none. -/
theorem alone_refillWriter (s : State τ) :
    (lg.refillWriter).Alone (sem lg) t (fun b s' => Passed lg t s s' ∧ Owned lg t s' ∧
      Sized lg t s' ∧ b = (currentWriter? lg t s').isSome ∧
      (s.cursor < lg.segment.chunkCount → s.cursor < s'.cursor) ∧
      (lg.segment.chunkCount ≤ s.cursor → currentWriter? lg t s' = none)) s := by
  refine Prog.Alone.bind (alone_claimChunk s) ?_
  rintro w s₁ ⟨hpassed, hcaches, hsize, hroom, hfull⟩
  refine Prog.Alone.perform ?_
  intro r s₂ hsem
  have hstored : s₂ = { s₁ with
    caches := Function.update s₁.caches t ⟨lg.address, lg.segment.generation, w⟩ } := hsem
  have hcache : s₂.caches t = ⟨lg.address, lg.segment.generation, w⟩ := by
    rw [hstored]
    exact Function.update_self _ _ _
  have howned : Owned lg t s₂ := by
    unfold Owned
    rw [hcache]
    exact ⟨rfl, rfl⟩
  have hcurrent := currentWriter?_owned howned
  rw [hcache] at hcurrent
  refine ⟨⟨?cursor, ?dropped, fun hnone => ?exhausted⟩, howned, ?sized, ?isSome, ?room,
    fun hnone => ?full⟩
  case cursor => rw [hstored]; exact hpassed.cursor
  case dropped => rw [hstored]; exact hpassed.dropped
  case exhausted =>
    obtain ⟨hmem, hkeys, htruncated, hothers⟩ := hpassed.exhausted hnone
    rw [hstored]
    refine ⟨hmem, hkeys, htruncated, fun t' hne => ?_⟩
    rw [← hothers t' hne]
    exact Function.update_of_ne hne _ _
  case sized =>
    intro w' hw'
    rw [hcurrent] at hw'
    split at hw'
    · cases hw'
      exact hsize
    · cases hw'
  case isSome =>
    rw [hcurrent]
    cases w.valid <;> rfl
  case room => rw [hstored]; exact hroom
  case full =>
    rw [hcurrent, hfull hnone]
    rfl

/-- The first writer an emit looks at. -/
theorem alone_currentWriter (hsized : Sized lg t s) :
    (lg.currentWriter).Alone (sem lg) t (fun b s' => Passed lg t s s' ∧ Owned lg t s' ∧
      Sized lg t s' ∧ b = (currentWriter? lg t s').isSome ∧
      (lg.segment.chunkCount ≤ s.cursor → currentWriter? lg t s' = currentWriter? lg t s)) s := by
  refine Prog.Alone.perform ?_
  rintro cache s₁ ⟨rfl, rfl⟩
  split
  · rename_i hforeign
    refine (alone_refillWriter s₁).mono ?_
    rintro b s' ⟨hpassed, howned, hsized', hb, -, hfull⟩
    refine ⟨hpassed, howned, hsized', hb, fun hnone => ?_⟩
    rw [hfull hnone]
    unfold currentWriter?
    rw [if_neg]
    rintro ⟨⟨howner, hgeneration⟩, -⟩
    exact hforeign.elim (fun hne => hne howner) fun hne => hne hgeneration
  · rename_i hours
    have howned : Owned lg t s₁ := by
      unfold Owned
      tauto
    refine ⟨Passed.refl s₁, howned, hsized, ?_, fun _ => rfl⟩
    rw [currentWriter?_owned howned]
    cases (s₁.caches t).writer.valid <;> rfl

/-! ### Reservations that fail -/

omit [DecidableEq τ] in
theorem writer_of_current {w : ChunkWriter} (h : currentWriter? lg t s = some w) :
    (s.caches t).writer = w ∧ w.valid = true := by
  unfold currentWriter? at h
  dsimp only at h
  split at h
  · rename_i hcurrent
    cases h
    exact ⟨rfl, hcurrent.2⟩
  · cases h

/-- The current writer, if there is one, has no room. -/
theorem alone_tryReserve {b : Bool} {n : Nat} (hb : b = (currentWriter? lg t s).isSome)
    (hnot : ∀ w ∈ currentWriter? lg t s, ¬w.Fits n) :
    (tryReserve b n).Alone (sem lg) t (fun r s' => r = none ∧ s' = s) s := by
  cases hcurrent : currentWriter? lg t s with
  | none =>
    rw [hcurrent] at hb
    subst hb
    exact ⟨rfl, rfl⟩
  | some w =>
    rw [hcurrent] at hb
    subst hb
    show (reserve n).Alone (sem lg) t _ s
    refine Prog.Alone.perform ?_
    rintro cache s₁ ⟨rfl, rfl⟩
    rw [(writer_of_current hcurrent).1, ChunkWriter.reserve_of_not_fits (hnot w hcurrent)]
    exact ⟨rfl, rfl⟩

/-- Nor has it for a chain. -/
theorem alone_tryReserveChain {b : Bool} {args : List Arg}
    (hb : b = (currentWriter? lg t s).isSome)
    (hnot : ∀ w ∈ currentWriter? lg t s, ¬w.FitsChain args) :
    (tryReserveChain b args).Alone (sem lg) t (fun r s' => r = none ∧ s' = s) s := by
  cases hcurrent : currentWriter? lg t s with
  | none =>
    rw [hcurrent] at hb
    subst hb
    exact ⟨rfl, rfl⟩
  | some w =>
    rw [hcurrent] at hb
    subst hb
    obtain ⟨hwriter, hvalid⟩ := writer_of_current hcurrent
    show (reserveChain args).Alone (sem lg) t _ s
    have hremaining : remaining.Alone (sem lg) t (fun n s' => n = w.remaining ∧ s' = s) s := by
      rintro cache s₁ ⟨rfl, rfl⟩
      exact ⟨congrArg ChunkWriter.remaining hwriter, rfl⟩
    refine Prog.Alone.bind hremaining ?_
    rintro left s₁ ⟨rfl, rfl⟩
    split
    · exact ⟨rfl, rfl⟩
    · rename_i hroom
      -- there is room for the chain, so the Message must be too long
      have hlong : ¬w.Fits (messagePayloadBytes args) := by
        rintro ⟨hshort, -⟩
        refine hnot w hcurrent ⟨hshort, ?_⟩
        have hpos : 0 < chainBytes args := Nat.add_pos_left (Nat.add_pos_left (by decide) _) _
        unfold ChunkWriter.remaining at hroom
        split at hroom
        · exact absurd hpos hroom
        · rename_i hbehind
          omega
      have hreserve : (reserve (messagePayloadBytes args)).Alone (sem lg) t
          (fun r s' => r = none ∧ s' = s₁) s₁ :=
        alone_tryReserve (b := true) (by rw [hcurrent]; rfl) fun w' hw' => by
          rw [hcurrent] at hw'
          cases hw'
          exact hlong
      refine Prog.Alone.bind hreserve ?_
      rintro r s₂ ⟨rfl, rfl⟩
      exact ⟨rfl, rfl⟩

/-! ### Refused emits -/

/-- The writer does not take what the emit would reserve of it. -/
def Declines (w : ChunkWriter) (e : Emit) : Prop :=
  if cHasByteArg e.args then ¬w.FitsChain e.args else ¬w.Fits (messagePayloadBytes e.args)

/-- The Message fits no chunk, or it needs one and none is left. -/
def Refused (lg : Logger τ) (t : τ) (s : State τ) (e : Emit) : Prop :=
  ¬fitsEmpty lg.segment.capacity (messagePayloadBytes e.args) ∨
    (lg.segment.chunkCount ≤ s.cursor ∧ ∀ w ∈ currentWriter? lg t s, Declines w e)

omit [DecidableEq τ] in
/-- A chunk's writer declines what does not fit an empty chunk. -/
theorem declines_of_not_fitsEmpty {w : ChunkWriter} (hsize : w.size ≤ lg.segment.capacity)
    {e : Emit} (h : ¬fitsEmpty lg.segment.capacity (messagePayloadBytes e.args)) :
    ¬w.Fits (messagePayloadBytes e.args) ∧ ¬w.FitsChain e.args := by
  constructor
  · rintro ⟨hshort, hroom⟩
    exact h ⟨hshort, by omega⟩
  · rintro ⟨hshort, hroom⟩
    have hchain : recordFootprint (messagePayloadBytes e.args) ≤ chainBytes e.args :=
      Nat.le_add_right _ _
    exact h ⟨hshort, by omega⟩

/-- What a refused emit did: one more drop; a chunk was taken if there was one, otherwise the
thread has no writer any more and nothing else changed. -/
structure Given (lg : Logger τ) (t : τ) (s s' : State τ) : Prop where
  dropped : s'.dropped = (s.dropped + 1) % lg.counterWrap
  taken : s.cursor < lg.segment.chunkCount → s.cursor < s'.cursor
  exhausted : lg.segment.chunkCount ≤ s.cursor → lg.segment.chunkCount ≤ s'.cursor ∧
    currentWriter? lg t s' = none ∧ s'.mem = s.mem ∧ s'.keys = s.keys ∧
    s'.truncated = s.truncated ∧ ∀ t', t' ≠ t → s'.caches t' = s.caches t'

/-- The retry: the first attempt failed, a refill follows and that one fails too. -/
structure Retried (lg : Logger τ) (t : τ) (s s' : State τ) : Prop extends Passed lg t s s' where
  sized : Sized lg t s'
  taken : s.cursor < lg.segment.chunkCount → s.cursor < s'.cursor
  gone : lg.segment.chunkCount ≤ s.cursor → currentWriter? lg t s' = none

/-- The drop is counted. -/
theorem alone_countDrop (h : Retried lg t s s') (emit : Option Emit) :
    (countDrop emit).Alone (sem lg) t (fun _ => Given lg t s) s' := by
  intro r s₁ hsem
  have hcounted : s₁ = { s' with
    dropped := (s'.dropped + 1) % lg.counterWrap
    trace := s'.trace ++ [.dropped t emit] } := hsem
  refine ⟨?_, ?_, fun hfull => ?_⟩
  · rw [hcounted, ← h.dropped]
  · rw [hcounted]
    exact h.taken
  · obtain ⟨hmem, hkeys, htruncated, hothers⟩ := h.exhausted hfull
    rw [hcounted]
    exact ⟨hfull.trans h.cursor, h.gone hfull, hmem, hkeys, htruncated, hothers⟩

/-- The first look at the thread's writer: it declines. -/
theorem alone_firstWriter {e : Emit} (hsized : Sized lg t s) (hrefused : Refused lg t s e) :
    (lg.currentWriter).Alone (sem lg) t (fun b s' => Passed lg t s s' ∧
      b = (currentWriter? lg t s').isSome ∧ ∀ w ∈ currentWriter? lg t s', Declines w e) s := by
  refine (alone_currentWriter hsized).mono ?_
  rintro b s' ⟨hpassed, -, hsized', hb, hsame⟩
  refine ⟨hpassed, hb, fun w hw => ?_⟩
  rcases hrefused with hnever | ⟨hfull, hdeclines⟩
  · obtain ⟨hfits, hchain⟩ := declines_of_not_fitsEmpty (hsized' w hw) hnever
    unfold Declines
    split
    · exact hchain
    · exact hfits
  · rw [hsame hfull] at hw
    exact hdeclines w hw

/-- The second look, behind a refill: what it claimed declines as well. -/
theorem alone_secondWriter {e : Emit} (hrefused : Refused lg t s e) (hpassed : Passed lg t s s') :
    (lg.refillWriter).Alone (sem lg) t (fun b s'' => Retried lg t s s'' ∧
      b = (currentWriter? lg t s'').isSome ∧
      ∀ w ∈ currentWriter? lg t s'', ¬w.Fits (messagePayloadBytes e.args) ∧
        ¬w.FitsChain e.args) s' := by
  refine (alone_refillWriter s').mono ?_
  rintro b s'' ⟨hpassed', -, hsized, hb, hroom, hfull⟩
  refine ⟨⟨hpassed.trans hpassed', hsized, fun hleft => ?_, fun hnone => ?_⟩, hb, fun w hw => ?_⟩
  · -- a chunk was taken by the refill, or all were taken before it
    by_cases hstill : s'.cursor < lg.segment.chunkCount
    · exact lt_of_le_of_lt hpassed.cursor (hroom hstill)
    · exact lt_of_lt_of_le hleft ((Nat.not_lt.mp hstill).trans hpassed'.cursor)
  · exact hfull (hnone.trans hpassed.cursor)
  · rcases hrefused with hnever | ⟨hnone, -⟩
    · exact declines_of_not_fitsEmpty (hsized w hw) hnever
    · rw [hfull (hnone.trans hpassed.cursor)] at hw
      cases hw

/-- A refused emit without a Bytes argument. -/
theorem alone_emitFixed {e : Emit} (hbytes : cHasByteArg e.args = false) (hsized : Sized lg t s)
    (hrefused : Refused lg t s e) :
    (lg.emitFixed e).Alone (sem lg) t (fun _ => Given lg t s) s := by
  have hpayload : sizeofMessagePayload + upperBoundSize e.args = messagePayloadBytes e.args := by
    rw [(encodeArgs_fixed 0 hbytes).2]
    rfl
  have hreserve : (lg.reserveRecord (sizeofMessagePayload + upperBoundSize e.args) (some e)).Alone
      (sem lg) t (fun r s' => r = none ∧ Given lg t s s') s := by
    rw [hpayload]
    refine Prog.Alone.bind (alone_firstWriter hsized hrefused) ?_
    rintro b s₁ ⟨hpassed, hb, hdeclines⟩
    have hnot : ∀ w ∈ currentWriter? lg t s₁, ¬w.Fits (messagePayloadBytes e.args) := by
      intro w hw
      have hdecline := hdeclines w hw
      unfold Declines at hdecline
      rwa [hbytes, if_neg Bool.false_ne_true] at hdecline
    refine Prog.Alone.bind (alone_tryReserve hb hnot) ?_
    rintro r s₂ ⟨rfl, rfl⟩
    refine Prog.Alone.bind (alone_secondWriter hrefused hpassed) ?_
    rintro b' s₃ ⟨hretried, hb', hnot'⟩
    refine Prog.Alone.bind (alone_tryReserve hb' fun w hw => (hnot' w hw).1) ?_
    rintro r s₄ ⟨rfl, rfl⟩
    refine Prog.Alone.bind (alone_countDrop hretried (some e)) ?_
    intro _ s₅ hgiven
    exact ⟨rfl, hgiven⟩
  refine Prog.Alone.bind hreserve ?_
  rintro r s' ⟨rfl, hgiven⟩
  exact hgiven

/-- A refused emit with one: the fallback to the Message alone fails too. -/
theorem alone_emitChained {e : Emit} (hbytes : cHasByteArg e.args = true) (hsized : Sized lg t s)
    (hrefused : Refused lg t s e) :
    (lg.emitChained e).Alone (sem lg) t (fun _ => Given lg t s) s := by
  refine Prog.Alone.bind (alone_firstWriter hsized hrefused) ?_
  rintro b s₁ ⟨hpassed, hb, hdeclines⟩
  have hnot : ∀ w ∈ currentWriter? lg t s₁, ¬w.FitsChain e.args := by
    intro w hw
    have hdecline := hdeclines w hw
    unfold Declines at hdecline
    rwa [hbytes, if_pos rfl] at hdecline
  refine Prog.Alone.bind (alone_tryReserveChain hb hnot) ?_
  rintro r s₂ ⟨rfl, rfl⟩
  refine Prog.Alone.bind (alone_secondWriter hrefused hpassed) ?_
  rintro b' s₃ ⟨hretried, hb', hnot'⟩
  refine Prog.Alone.bind (alone_tryReserveChain hb' fun w hw => (hnot' w hw).2) ?_
  rintro r s₄ ⟨rfl, rfl⟩
  cases b' with
  | false => exact alone_countDrop hretried (some e)
  | true =>
    refine Prog.Alone.bind (alone_tryReserve hb' fun w hw => (hnot' w hw).1) ?_
    rintro r s₅ ⟨rfl, rfl⟩
    exact alone_countDrop hretried (some e)

/-- A refused emit at an announced site. -/
theorem alone_emitRecord {e : Emit} (hkey : s.keys e.site = lg.segment.announceKey)
    (hsized : Sized lg t s) (hrefused : Refused lg t s e) :
    (lg.emitRecord e).Alone (sem lg) t (fun _ => Given lg t s) s := by
  refine Prog.Alone.perform ?_
  rintro key s₁ ⟨rfl, rfl⟩
  rw [if_neg (not_not_intro hkey)]
  unfold Logger.emitMessage
  split
  · rename_i hbytes
    exact alone_emitChained hbytes hsized hrefused
  · rename_i hbytes
    exact alone_emitFixed (by simpa using hbytes) hsized hrefused

/-! ### The cost -/

/-- What a drop should leave behind: itself, and the raw cursor. -/
structure Unchanged (lg : Logger τ) (t : τ) (s s' : State τ) : Prop where
  dropped : s'.dropped = (s.dropped + 1) % lg.counterWrap
  claimedChunks : s'.claimedChunks lg.segment = s.claimedChunks lg.segment
  mem : s'.mem = s.mem
  writer : currentWriter? lg t s' = currentWriter? lg t s
  keys : s'.keys = s.keys
  truncated : s'.truncated = s.truncated
  others : ∀ t', t' ≠ t → s'.caches t' = s.caches t'

omit [DecidableEq τ] in
/-- A refused emit costs nothing but its drop when there was nothing to lose. -/
theorem unchanged_iff (h : Given lg t s s') : Unchanged lg t s s' ↔
    lg.segment.chunkCount ≤ s.cursor ∧ currentWriter? lg t s = none := by
  constructor
  · intro hsame
    have hclaimed := hsame.claimedChunks
    unfold State.claimedChunks at hclaimed
    have hfull : lg.segment.chunkCount ≤ s.cursor := by
      by_contra hroom
      have htaken := h.taken (Nat.not_le.mp hroom)
      omega
    obtain ⟨-, hgone, -⟩ := h.exhausted hfull
    exact ⟨hfull, hsame.writer.symm.trans hgone⟩
  · rintro ⟨hfull, hnone⟩
    obtain ⟨hfull', hgone, hmem, hkeys, htruncated, hothers⟩ := h.exhausted hfull
    refine ⟨h.dropped, ?_, hmem, hgone.trans hnone.symm, hkeys, htruncated, hothers⟩
    unfold State.claimedChunks
    rw [Nat.min_eq_right hfull, Nat.min_eq_right hfull']

/-- Between its calls a thread's writer is that of the chunk it claimed last. -/
theorem sized_of_idle {S : Setting τ} {hist : List (Event τ)} (h : S.Idle t hist s) :
    Sized S.lg t s := by
  intro w hw
  unfold currentWriter? at hw
  dsimp only at hw
  split at hw
  · rename_i hcurrent
    cases hw
    obtain ⟨c, -, hwriter⟩ := h.cache hcurrent.1.1 hcurrent.1.2 hcurrent.2
    rw [hwriter]
    exact Nat.le_refl _
  · cases hw

/-- **The cost of a refused emit.** From any state a run leaves a thread in, at an announced
site: an emit that is refused changes nothing but the count of drops exactly when no chunk
was left and the thread had no writer. -/
theorem refused_unchanged_iff {L : Launch lg} {calls : τ → List (Call lg)} {e : Emit}
    {p p' : Pool Op.Answer τ (State τ) Unit} (h : OneMore L calls t e p p')
    (hkey : p.shared.keys e.site = lg.segment.announceKey)
    (hrefused : Refused lg t p.shared e) :
    Unchanged lg t p.shared p'.shared ↔
      lg.segment.chunkCount ≤ p.shared.cursor ∧ currentWriter? lg t p.shared = none := by
  obtain ⟨-, hist, hidle, -⟩ := h.before
  have hstart : (Function.update p.prog t (lg.emitRecord e)) t = lg.emitRecord e :=
    Function.update_self _ _ _
  have halone : ((Function.update p.prog t (lg.emitRecord e)) t).Alone (sem lg) t
      (fun _ => Given lg t p.shared) p.shared := by
    rw [hstart]
    exact alone_emitRecord hkey (sized_of_idle hidle) hrefused
  exact unchanged_iff (Prog.Alone.returned
    (p := ⟨p.shared, Function.update p.prog t (lg.emitRecord e)⟩) halone h.alone h.returned)

/-- A site whose Messages fit no chunk of 128 bytes. -/
def wideSite : SiteDescriptor where
  format := []
  file := []
  line := 1
  subsystem := 0
  severity := 2
  argTypes := List.replicate 9 .u64
  argTypes_le := by decide
  payload_lt := by decide

/-- An emit of it. -/
def wideEmit : Emit := ⟨16, List.replicate 9 (.u64 7), 0⟩

def wideEmits (_ : Unit) : List (Call (smallLogger 5 wideSite)) := [.emit wideEmit rfl]

/-- After the first emit: the site is defined, the Message was dropped. -/
def wideRun : Pool Op.Answer Unit (State Unit) Unit :=
  runThread (smallLogger 5 wideSite) () ((smallLaunch five_chunks wideSite).pool wideEmits)

/-- After the second. -/
def wideRunOn : Pool Op.Answer Unit (State Unit) Unit :=
  runThread (smallLogger 5 wideSite) () ⟨wideRun.shared,
    Function.update wideRun.prog () ((smallLogger 5 wideSite).emitRecord wideEmit)⟩

theorem wideRunOn_oneMore :
    OneMore (smallLaunch (by decide) wideSite) wideEmits () wideEmit wideRun wideRunOn where
  run := (runThread_reachable _ () _).reachable
  idle := rfl
  typed := rfl
  alone := runThread_reachable _ () _
  returned := rfl

theorem refused_unchanged_iff_wide :
    Unchanged (smallLogger 5 wideSite) () wideRun.shared wideRunOn.shared ↔
      (smallLogger 5 wideSite).segment.chunkCount ≤ wideRun.shared.cursor ∧
        currentWriter? (smallLogger 5 wideSite) () wideRun.shared = none :=
  refused_unchanged_iff wideRunOn_oneMore (by decide +kernel) (Or.inl (by decide +kernel))

/-- The second of two emits that can never be written takes a chunk of its own. -/
theorem refused_claims : ∃ (lg : Logger Unit) (L : Launch lg) (calls : Unit → List (Call lg))
    (e : Emit) (p p' : Pool Op.Answer Unit (State Unit) Unit), OneMore L calls () e p p' ∧
      p.shared.keys e.site = lg.segment.announceKey ∧ Refused lg () p.shared e ∧
      p.shared.claimedChunks lg.segment = 2 ∧ p'.shared.claimedChunks lg.segment = 3 ∧
      ¬Unchanged lg () p.shared p'.shared := by
  have hbefore : wideRun.shared.claimedChunks (smallLogger 5 wideSite).segment = 2 := by
    decide +kernel
  have hafter : wideRunOn.shared.claimedChunks (smallLogger 5 wideSite).segment = 3 := by
    decide +kernel
  refine ⟨_, _, _, _, _, _, wideRunOn_oneMore, by decide +kernel, Or.inl (by decide +kernel),
    hbefore, hafter, fun hsame => ?_⟩
  have heq := hsame.claimedChunks
  rw [hbefore, hafter] at heq
  cases heq

end Sub0Log.System
