import Sub0Log.Producer.Stores

/-!
# Claiming chunks and reserving records

The contracts of `claimChunk`, `refillWriter` and `currentWriter`, which leave a thread
with a writer behind the last record of the chunk it claimed last, or with none
(`Fetched`), and those of `reserve` and `reserveRecord`. A reservation moves the writer on
and stores nothing: what was reserved is laid down by the publication that follows.
-/

open Bytes Interleaving

namespace Sub0Log.Producer

open Wire

variable {τ : Type}

namespace ChunkWriter

/-- `reserve` has room. -/
def Fits (w : ChunkWriter) (payloadBytes : Nat) : Prop :=
  payloadBytes ≤ 0xFFFF ∧ w.offset + recordFootprint payloadBytes ≤ w.size

/-- The reservation `reserve` makes. -/
def slot (w : ChunkWriter) : Reservation := ⟨w.body + w.offset, w.sequence⟩

/-- The writer behind a reservation. -/
def advance (w : ChunkWriter) (payloadBytes : Nat) : ChunkWriter :=
  { w with offset := w.offset + recordFootprint payloadBytes, sequence := w.sequence + 1 }

@[simp] theorem advance_body (w : ChunkWriter) (n : Nat) : (w.advance n).body = w.body := rfl

@[simp] theorem advance_size (w : ChunkWriter) (n : Nat) : (w.advance n).size = w.size := rfl

/-- Several reservations, one behind the other. -/
theorem foldl_advance (w : ChunkWriter) (ns : List Nat) :
    ns.foldl advance w = { w with
      offset := w.offset + (ns.map recordFootprint).sum
      sequence := w.sequence + UInt16.ofNat ns.length } := by
  induction ns generalizing w with
  | nil => simp
  | cons n ns ih =>
    rw [List.foldl_cons, ih, List.map_cons, List.sum_cons, List.length_cons]
    simp only [advance, mk.injEq, true_and]
    refine ⟨by omega, ?_⟩
    rw [UInt16.ofNat_add, UInt16.add_assoc, UInt16.add_comm 1]
    rfl

theorem reserve_of_fits {w : ChunkWriter} {n : Nat} (h : w.Fits n) :
    w.reserve n = some (w.slot, w.advance n) := by
  obtain ⟨hn, hroom⟩ := h
  unfold recordFootprint at hroom
  have hvalid : w.valid = true := decide_eq_true (by omega)
  have hremaining : w.remaining = w.size - w.offset := by
    unfold remaining
    rw [if_neg]
    rintro (hinvalid | hlt)
    · rw [hvalid] at hinvalid
      cases hinvalid
    · omega
  unfold reserve
  rw [if_neg (by omega)]
  show (if w.valid = false ∨ w.remaining < 8 + paddedPayload n then Option.none else _) = _
  rw [if_neg]
  · rfl
  · rintro (hinvalid | hlt)
    · rw [hvalid] at hinvalid
      cases hinvalid
    · omega

theorem reserve_of_not_fits {w : ChunkWriter} {n : Nat} (h : ¬w.Fits n) :
    w.reserve n = Option.none := by
  unfold reserve
  by_cases hn : 0xFFFF < n
  · rw [if_pos hn]
  · rw [if_neg hn]
    show (if w.valid = false ∨ w.remaining < 8 + paddedPayload n then Option.none else _) = _
    refine if_pos (Or.inr ?_)
    have hroom : ¬w.offset + recordFootprint n ≤ w.size := fun hroom =>
      h ⟨Nat.le_of_not_lt hn, hroom⟩
    unfold recordFootprint at hroom
    unfold remaining
    split <;> omega

end ChunkWriter

namespace Setting

variable (S : Setting τ) [DecidableEq τ]

/-- A writer was asked for: `b` says whether there is one, `fresh` that it is that of an
empty chunk. -/
def Fetched (fresh : Prop) (t : τ) (h : List (Event τ)) (b : Bool) (s : State τ) : Prop :=
  (b = true ∧ ∃ c, (fresh → writtenIn S.lg.segment c h = []) ∧
    S.Ready t h c (S.writerAt h c) s) ∨ (b = false ∧ S.Idle t h s)

variable {S} {t : τ} {h : List (Event τ)} {c : Nat} {s s' : State τ} {w : ChunkWriter}

/-! ### Chunks -/

omit [DecidableEq τ] in
theorem writerAt_valid (h : List (Event τ)) (c : Nat) : (S.writerAt h c).valid = true :=
  decide_eq_true (Nat.ne_of_gt S.sound.capacity_pos)

omit [DecidableEq τ] in
/-- The writer of an empty chunk. -/
theorem writerAt_nil (hnil : writtenIn S.lg.segment c h = []) :
    S.writerAt h c = ⟨S.lg.segment.bodyBase c, S.lg.segment.capacity, 0, 0⟩ := by
  unfold writerAt
  rw [hnil]
  rfl

/-- A stamped chunk is quiet. -/
theorem Writing.stamped {time : UInt64} {W : Nat → Prop} {R : WriterCache → Prop}
    (hnil : writtenIn S.lg.segment c h = [])
    (hP : S.Writing t h c (fun _ => 0)
      (stampPlan S.sound c (S.lg.threadId t) time hnil).after W R s)
    (hW : ∀ x, W x ↔ Range (S.lg.segment.chunkBase c) sizeofChunkHeader x) : S.Held t h s := by
  have hgt := S.sound.chunkBytes_gt
  have hhead : S.lg.segment.bodyBase c = S.lg.segment.chunkBase c + sizeofChunkHeader := rfl
  have hlength := (S.lg.segment.chunkHeader (S.lg.threadId t) time).toBytes_length
  refine ⟨hP.hist, fun c' hc' => ?_⟩
  by_cases heq : c' = c
  · subst heq
    unfold QuietIn
    rw [hnil]
    refine quiet_nil S.sound (?_ : _ = (S.lg.segment.chunkHeader _ time).toBytes) fun x h₁ h₂ => ?_
    · calc s.mem.slice (S.lg.segment.chunkBase c') sizeofChunkHeader
          = (stampPlan S.sound c' (S.lg.threadId t) time hnil).after.slice
              (S.lg.segment.chunkBase c') sizeofChunkHeader :=
            Mem.slice_congr fun x h₁ h₂ =>
              hP.stored x ⟨h₁, by omega⟩ ((hW x).mpr ⟨h₁, h₂⟩)
        _ = (S.lg.segment.chunkHeader (S.lg.threadId t) time).toBytes :=
            Mem.slice_store_eq hlength
    · refine hP.waiting x ⟨by omega, h₂⟩ fun hx => ?_
      have hbound := ((hW x).mp hx).2
      omega
  · exact hP.others c' hc' heq

/-- `Segment::claimChunk`: a stamped, empty chunk, or no writer. -/
theorem claimChunk_meets :
    S.Meets t (S.Idle t h) S.lg.claimChunk fun w s =>
      (∃ c, writtenIn S.lg.segment c (h ++ [.claimed t c]) = [] ∧
        w = S.writerAt (h ++ [.claimed t c]) c ∧ S.Held t (h ++ [.claimed t c]) s ∧
        LastClaim (h ++ [.claimed t c]) c) ∨
      (w = ChunkWriter.none ∧ S.Idle t h s) := by
  refine Spec.Triple.bind claimIndex_meets fun index => Spec.Triple.of_or ?_ ?_
  · refine Spec.Triple.of_pure fun ⟨hroom, hnil⟩ => ?_
    rw [if_neg (Nat.not_le_of_lt hroom)]
    refine Spec.Triple.bind (currentThreadId_meets writing_stable) fun owner => ?_
    refine Spec.Triple.of_pure fun howner => ?_
    subst howner
    refine Spec.Triple.bind (monotonicNow_meets writing_stable) fun time => ?_
    have hgt := S.sound.chunkBytes_gt
    have hlength := (S.lg.segment.chunkHeader (S.lg.threadId t) time).toBytes_length
    have hcopy : S.Meets t
        (S.Writing t (h ++ [.claimed t index]) index (fun _ => 0)
          (stampPlan S.sound index (S.lg.threadId t) time hnil).after (fun _ => False)
          fun _ => True)
        (copyBytes (S.lg.segment.chunkBase index)
          (S.lg.segment.chunkHeader (S.lg.threadId t) time).toBytes) _ :=
      copyBytes_meets (stampPlan S.sound index (S.lg.threadId t) time hnil)
        (fun x hx => ⟨⟨hx.1, by have := hx.2; omega⟩, fun hfalse => hfalse⟩)
        (Mem.slice_store_self _ _ _) (fun x hfalse => hfalse.elim)
    refine Spec.Triple.bind (Spec.Triple.conseq hcopy (fun s _ hP => ?_) fun _ _ _ hQ => hQ)
      fun _ => Spec.Triple.pure fun s _ hP => Or.inl ⟨index, hnil, (writerAt_nil hnil).symm, ?_,
        hP.last⟩
    · -- nothing is stored yet, so what the memory will be does not matter
      exact ⟨hP.hist, hP.last, hP.others, fun _ _ hfalse => hfalse.elim, hP.waiting, hP.cache⟩
    · refine hP.stamped hnil fun x => ?_
      rw [hlength]
      exact or_iff_right fun hfalse => hfalse
  · refine Spec.Triple.of_pure fun hfull => ?_
    rw [if_pos hfull]
    exact Spec.Triple.pure fun s _ hP => Or.inr ⟨rfl, hP⟩

/-- `Logger::refillWriter`: the writer of an empty chunk, or none. -/
theorem refillWriter_meets :
    S.Meets t (S.Idle t h) S.lg.refillWriter fun b s =>
      ∃ h', deeds h' = deeds h ∧ S.Fetched True t h' b s := by
  refine Spec.Triple.bind claimChunk_meets fun w => Spec.Triple.of_or ?_ ?_
  · refine Spec.Triple.of_exists fun c => Spec.Triple.of_pure fun hnil =>
      Spec.Triple.of_pure fun hw => ?_
    subst hw
    have hstable : S.Stable t fun s => S.Held t (h ++ [.claimed t c]) s ∧
        LastClaim (h ++ [.claimed t c]) c := fun s s' henv hP => ⟨hP.1.env henv, hP.2⟩
    have hstore : S.Meets t _ (storeCache (S.cacheOf (S.writerAt (h ++ [.claimed t c]) c))) fun _ =>
        S.Ready t (h ++ [.claimed t c]) c (S.writerAt (h ++ [.claimed t c]) c) :=
      storeCache_meets hstable fun s hP =>
        ⟨⟨hP.1.hist, hP.1.quiet⟩, hP.2, Function.update_self _ _ _⟩
    refine Spec.Triple.bind hstore fun _ => Spec.Triple.pure fun s _ hP => ?_
    exact ⟨_, deeds_claimed h t c, Or.inl ⟨writerAt_valid _ _, c, fun _ => hnil, hP⟩⟩
  · refine Spec.Triple.of_pure fun hw => ?_
    subst hw
    have hstore : S.Meets t (S.Idle t h) (storeCache (S.cacheOf ChunkWriter.none)) fun _ =>
        S.Idle t h := by
      refine storeCache_meets idle_stable fun s hP => ⟨⟨hP.hist, hP.quiet⟩, fun _ _ hvalid => ?_⟩
      change (Function.update s.caches t (S.cacheOf ChunkWriter.none) t).writer.valid = true
        at hvalid
      rw [Function.update_self] at hvalid
      cases hvalid
    exact Spec.Triple.bind hstore fun _ => Spec.Triple.pure fun s _ hP =>
      ⟨h, rfl, Or.inr ⟨rfl, hP⟩⟩

/-- `Logger::currentWriter`. -/
theorem currentWriter_meets :
    S.Meets t (S.Idle t h) S.lg.currentWriter fun b s =>
      ∃ h', deeds h' = deeds h ∧ S.Fetched False t h' b s := by
  refine Spec.Triple.bind (loadCache_meets idle_stable) fun cache => ?_
  by_cases howned : cache.owner ≠ S.lg.address ∨ cache.generation ≠ S.lg.segment.generation
  · rw [if_pos howned]
    refine Spec.Triple.conseq refillWriter_meets (fun s _ hP => hP.2) ?_
    rintro b s _ ⟨h', hdeeds, hfetched⟩
    refine ⟨h', hdeeds, hfetched.imp_left ?_⟩
    rintro ⟨hb, c, -, hready⟩
    exact ⟨hb, c, fun hfalse => hfalse.elim, hready⟩
  · rw [if_neg howned]
    obtain ⟨howner, hgeneration⟩ := not_or.mp howned
    rw [ne_eq, not_not] at howner hgeneration
    refine Spec.Triple.pure fun s _ hP => ⟨h, rfl, ?_⟩
    obtain ⟨hcache, hidle⟩ := hP
    subst hcache
    cases hvalid : (s.caches t).writer.valid with
    | false => exact Or.inr ⟨rfl, hidle⟩
    | true =>
      obtain ⟨c, hlast, hwriter⟩ := hidle.cache howner hgeneration hvalid
      refine Or.inl ⟨rfl, c, fun hfalse => hfalse.elim, hidle.toHeld, hlast, ?_⟩
      unfold cacheOf
      rw [← howner, ← hgeneration, ← hwriter]

/-! ### Reservations -/

/-- `writer->remaining()`. -/
theorem remaining_meets :
    S.Meets t (S.Ready t h c w) remaining fun n s => n = w.remaining ∧ S.Ready t h c w s := by
  refine Spec.Triple.bind (loadCache_meets ready_stable) fun cache =>
    Spec.Triple.pure fun s _ hP => ⟨?_, hP.2⟩
  rw [hP.1, hP.2.cache]
  rfl

/-- `reserve` makes a reservation if there is room, and does nothing otherwise. -/
theorem reserve_meets (n : Nat) :
    S.Meets t (S.Ready t h c w) (reserve n) fun r s =>
      ((w.Fits n ∧ r = some w.slot) ∧ S.Ready t h c (w.advance n) s) ∨
      ((¬w.Fits n ∧ r = none) ∧ S.Ready t h c w s) := by
  refine Spec.Triple.bind (loadCache_meets ready_stable) fun cache => ?_
  suffices hcached : cache = S.cacheOf w → S.Meets t (S.Ready t h c w) _ _ from
    Spec.Triple.conseq (Spec.Triple.of_pure hcached)
      (fun s _ hP => ⟨hP.1.trans hP.2.cache, hP.2⟩) fun _ _ _ hQ => hQ
  intro hcache
  subst hcache
  by_cases hfits : w.Fits n
  · have hreserve : (S.cacheOf w).writer.reserve n = some (w.slot, w.advance n) :=
      ChunkWriter.reserve_of_fits hfits
    rw [hreserve]
    have hstore : S.Meets t (S.Ready t h c w) (storeCache (S.cacheOf (w.advance n))) fun _ =>
        S.Ready t h c (w.advance n) :=
      storeCache_meets ready_stable fun s hP =>
        ⟨⟨hP.hist, hP.quiet⟩, hP.last, Function.update_self _ _ _⟩
    exact Spec.Triple.bind hstore fun _ => Spec.Triple.pure fun s _ hP =>
      Or.inl ⟨⟨hfits, rfl⟩, hP⟩
  · have hreserve : (S.cacheOf w).writer.reserve n = none :=
      ChunkWriter.reserve_of_not_fits hfits
    rw [hreserve]
    exact Spec.Triple.pure fun s _ hP => Or.inr ⟨⟨hfits, rfl⟩, hP⟩

end Setting

end Sub0Log.Producer
