import Sub0Log.System.Launch

/-!
# Claiming chunks

`detail::claimChunkIndex` at the grain of its atomic operations. The 64-bit path is one
`fetch_add`. The split path loads the low half of the cursor and then exchanges it in a
loop; an exchange may fail although nothing changed, and a failed exchange reloads.

The two paths are one allocator: `Fair` says what an allocator of `n` chunks returns, each
operation keeps it, and **`claims_exclusive`** is what holds of every run. The 64-bit cursor
counts refused claims as well, so it comes back to zero after `2 ^ 64` of them
(`claims_repeat`); the theorem speaks of the claims before that. `claim_simulated` justifies
the single step that the rest of the development takes a claim to be.
-/

open Bytes

namespace Sub0Log.System

open Wire Reader Producer

/-! ### The two algorithms -/

/-- Where a thread is in `claimChunkIndex`: outside, or at the test of the split path's
loop with the `index` it saw last. -/
inductive Control
  | idle
  | looping (index : Nat)

/-- The cursor's word, where each thread is, and what was returned so far. -/
structure Claims (τ : Type) where
  word : Nat
  control : τ → Control
  returned : List (τ × Nat)

namespace Claims

variable {τ : Type}

/-- Before the first claim. -/
def start : Claims τ := ⟨0, fun _ => .idle, []⟩

/-- The half of the word the split path works on. -/
def low (s : Claims τ) : Nat := s.word % 2 ^ 32

/-- The word with another low half. -/
def storeLow (word low : Nat) : Nat := word / 2 ^ 32 * 2 ^ 32 + low % 2 ^ 32

variable [DecidableEq τ]

/-- `claimChunkIndex` returns `index` to thread `t`. -/
def answered (s : Claims τ) (t : τ) (index : Nat) : Claims τ :=
  { s with
    control := Function.update s.control t .idle
    returned := s.returned ++ [(t, index)] }

/-- One atomic operation of one thread. -/
inductive Step (split : Bool) (chunkCount : UInt32) : Claims τ → Claims τ → Prop
  /-- The 64-bit path. -/
  | fetchAdd {s : Claims τ} (t : τ) (path : split = false) (control : s.control t = .idle) :
      Step split chunkCount s
        ({ s with word := (s.word + 1) % 2 ^ 64 }.answered t
          (if s.word < chunkCount.toNat then s.word else chunkCount.toNat))
  /-- The load in front of the loop. -/
  | load {s : Claims τ} (t : τ) (path : split = true) (control : s.control t = .idle) :
      Step split chunkCount s
        { s with control := Function.update s.control t (.looping s.low) }
  /-- The loop is left. -/
  | leave {s : Claims τ} (t : τ) {index : Nat} (control : s.control t = .looping index)
      (test : chunkCount.toNat ≤ index) : Step split chunkCount s (s.answered t chunkCount.toNat)
  /-- The exchange succeeds. -/
  | exchange {s : Claims τ} (t : τ) {index : Nat} (control : s.control t = .looping index)
      (test : index < chunkCount.toNat) (expected : s.low = index) :
      Step split chunkCount s ({ s with word := storeLow s.word (index + 1) }.answered t index)
  /-- The exchange fails, for another value or for no reason. -/
  | fail {s : Claims τ} (t : τ) {index : Nat} (control : s.control t = .looping index)
      (test : index < chunkCount.toNat) :
      Step split chunkCount s
        { s with control := Function.update s.control t (.looping s.low) }

/-- The states of all runs. -/
def Reached (split : Bool) (chunkCount : UInt32) (s : Claims τ) : Prop :=
  Relation.ReflTransGen (Step split chunkCount) start s

/-- `detail::loadClaimedChunks`. -/
def loadClaimedChunks (split : Bool) (chunkCount : UInt32) (s : Claims τ) : Nat :=
  let claimed := if split then s.low else s.word
  if claimed < chunkCount.toNat then claimed else chunkCount.toNat

end Claims

/-! ### What an allocator returns -/

section Fair

variable {τ : Type}

/-- The indices that are chunks, in the order in which they were returned. -/
def granted (n : Nat) (returned : List (τ × Nat)) : List Nat :=
  (returned.map Prod.snd).filter fun index => index < n

/-- The number of successful claims. -/
def successes (n : Nat) (returned : List (τ × Nat)) : Nat := (granted n returned).length

/-- What was returned are the chunks in order, and a refusal only when there was none left. -/
structure Fair (n : Nat) (returned : List (τ × Nat)) : Prop where
  granted : granted n returned = List.range (successes n returned)
  successes_le : successes n returned ≤ n
  index_le : ∀ x ∈ returned, x.2 ≤ n
  refused : ∀ i x, returned[i]? = some x → x.2 = n → successes n (returned.take i) = n

variable {n : Nat} {returned : List (τ × Nat)}

theorem granted_concat (x : τ × Nat) :
    granted n (returned ++ [x]) = granted n returned ++ if x.2 < n then [x.2] else [] := by
  unfold granted
  rw [List.map_append, List.filter_append]
  by_cases h : x.2 < n <;> simp [h]

theorem successes_concat (x : τ × Nat) :
    successes n (returned ++ [x]) = successes n returned + if x.2 < n then 1 else 0 := by
  unfold successes
  rw [granted_concat, List.length_append]
  split <;> rfl

theorem Fair.nil : Fair n ([] : List (τ × Nat)) where
  granted := rfl
  successes_le := Nat.zero_le n
  index_le := fun x hx => by cases hx
  refused := fun i x hx => by cases hx

/-- One more index, below or at the end as the claims so far demand. -/
theorem Fair.concat (h : Fair n returned) (t : τ) {index : Nat}
    (hindex : index = successes n returned) :
    Fair n (returned ++ [(t, index)]) := by
  have hle : index ≤ n := hindex ▸ h.successes_le
  refine ⟨?granted, ?successes_le, fun x hx => ?index_le, fun i x hx hn => ?refused⟩
  case granted =>
    rw [granted_concat, successes_concat, h.granted]
    by_cases hlt : index < n
    · rw [if_pos hlt, if_pos hlt, List.range_succ, hindex]
    · rw [if_neg hlt, if_neg hlt, List.append_nil, Nat.add_zero]
  case successes_le =>
    rw [successes_concat]
    split
    · rename_i hlt
      show successes n returned + 1 ≤ n
      rw [← hindex]
      exact hlt
    · exact h.successes_le
  case index_le =>
    rcases List.mem_append.mp hx with hold | hnew
    · exact h.index_le x hold
    · rw [List.mem_singleton.mp hnew]
      exact hle
  case refused =>
    rw [List.getElem?_append] at hx
    split at hx
    · rename_i hlt
      rw [List.take_append_of_le_length (Nat.le_of_lt hlt)]
      exact h.refused i x hx hn
    · rename_i hge
      -- the new index is the last one
      obtain ⟨hlast, heq⟩ := List.getElem?_eq_some_iff.mp hx
      rw [List.length_singleton, Nat.lt_one_iff, Nat.sub_eq_zero_iff_le] at hlast
      obtain rfl : i = returned.length := Nat.le_antisymm hlast (Nat.not_lt.mp hge)
      rw [List.getElem_singleton] at heq
      rw [List.take_left, ← hindex, ← hn, ← heq]

end Fair

/-! ### One step -/

section Runs

variable {τ : Type} [DecidableEq τ] {split : Bool} {chunkCount : UInt32}

namespace Claims

/-- The invariant: what was returned is fair, the cursor counts the successful claims, up to
the end only on the split path, and no thread has seen an index that is still to come. -/
structure Inv (split : Bool) (chunkCount : UInt32) (s : Claims τ) : Prop where
  fair : Fair chunkCount.toNat s.returned
  taken : successes chunkCount.toNat s.returned = min s.word chunkCount.toNat
  word_le : split = true → s.word ≤ chunkCount.toNat
  counted : split = false → s.word = s.returned.length
  seen : ∀ t index, s.control t = .looping index → split = true ∧ index ≤ s.word

omit [DecidableEq τ] in
theorem start_inv : Inv split chunkCount (start : Claims τ) where
  fair := Fair.nil
  taken := (Nat.zero_min _).symm
  word_le := fun _ => Nat.zero_le _
  counted := fun _ => rfl
  seen := fun t index h => by cases h

omit [DecidableEq τ] in
theorem low_of_le {s : Claims τ} (h : s.word ≤ chunkCount.toNat) : s.low = s.word :=
  Nat.mod_eq_of_lt (lt_of_le_of_lt h chunkCount.toNat_lt)

omit [DecidableEq τ] in
/-- A successful exchange counts one up. -/
theorem storeLow_succ {s : Claims τ} (h : s.low < chunkCount.toNat)
    (hle : s.word ≤ chunkCount.toNat) : storeLow s.word (s.low + 1) = s.word + 1 := by
  have hword := low_of_le hle
  have hlt : s.word + 1 < 2 ^ 32 :=
    lt_of_le_of_lt (hword ▸ h) chunkCount.toNat_lt
  unfold storeLow
  rw [hword, Nat.mod_eq_of_lt hlt, Nat.div_eq_of_lt (Nat.lt_of_succ_lt hlt), Nat.zero_mul,
    Nat.zero_add]

/-- The other threads are where they were. -/
theorem seen_update {s : Claims τ} {t : τ} {c : Control} {word : Nat}
    (h : ∀ t index, s.control t = .looping index → split = true ∧ index ≤ s.word)
    (hword : s.word ≤ word) (hc : ∀ index, c = .looping index → split = true ∧ index ≤ word) :
    ∀ t' index, Function.update s.control t c t' = .looping index →
      split = true ∧ index ≤ word := by
  intro t' index ht'
  by_cases heq : t' = t
  · subst heq
    rw [Function.update_self] at ht'
    exact hc index ht'
  · rw [Function.update_of_ne heq] at ht'
    obtain ⟨hsplit, hle⟩ := h t' index ht'
    exact ⟨hsplit, hle.trans hword⟩

/-- Every operation keeps the invariant, on the 64-bit path while the cursor has not come
back to zero. -/
theorem Inv.step {s s' : Claims τ} (h : Inv split chunkCount s)
    (hstep : Step split chunkCount s s')
    (hwrap : split = false → s'.returned.length < 2 ^ 64) : Inv split chunkCount s' := by
  cases hstep with
  | fetchAdd t path control =>
    have hword : s.word + 1 < 2 ^ 64 := by
      have hlt := hwrap path
      unfold answered at hlt
      rw [List.length_append] at hlt
      rw [h.counted path]
      exact hlt
    have hindex : (if s.word < chunkCount.toNat then s.word else chunkCount.toNat) =
        successes chunkCount.toNat s.returned := by
      rw [h.taken]
      split <;> omega
    refine ⟨h.fair.concat t hindex, ?_, fun hsplit => ?_, fun _ => ?_, ?_⟩
    · show successes chunkCount.toNat (s.returned ++ [_]) = min ((s.word + 1) % 2 ^ 64) _
      rw [successes_concat, h.taken, Nat.mod_eq_of_lt hword]
      by_cases hlt : s.word < chunkCount.toNat
      · simp only [hlt, if_true]
        rw [Nat.min_eq_left (Nat.le_of_lt hlt), Nat.min_eq_left hlt]
      · -- past the end the cursor goes on counting
        simp only [hlt, if_false, Nat.lt_irrefl]
        rw [Nat.min_eq_right (Nat.not_lt.mp hlt),
          Nat.min_eq_right ((Nat.not_lt.mp hlt).trans (Nat.le_succ _)), Nat.add_zero]
    · rw [path] at hsplit
      cases hsplit
    · show (s.word + 1) % 2 ^ 64 = (s.returned ++ [_]).length
      rw [Nat.mod_eq_of_lt hword, List.length_append, h.counted path]
      rfl
    · refine seen_update (s := s) h.seen ?_ fun index hidle => by cases hidle
      show s.word ≤ (s.word + 1) % 2 ^ 64
      rw [Nat.mod_eq_of_lt hword]
      exact Nat.le_succ _
  | load t path control =>
    refine ⟨h.fair, h.taken, h.word_le, h.counted, ?_⟩
    refine seen_update h.seen (Nat.le_refl _) fun index heq => ?_
    cases heq
    exact ⟨path, Nat.mod_le _ _⟩
  | @leave t index control test =>
    obtain ⟨hsplit, hle⟩ := h.seen t index control
    have hfull : s.word = chunkCount.toNat :=
      Nat.le_antisymm (h.word_le hsplit) (test.trans hle)
    have hindex : chunkCount.toNat = successes chunkCount.toNat s.returned := by
      rw [h.taken, hfull, Nat.min_self]
    refine ⟨h.fair.concat t hindex, ?_, h.word_le, fun hpath => ?_, ?_⟩
    · show successes chunkCount.toNat (s.returned ++ [_]) = min s.word _
      rw [successes_concat, h.taken, if_neg (Nat.lt_irrefl _), Nat.add_zero]
    · rw [hpath] at hsplit
      cases hsplit
    · exact seen_update h.seen (Nat.le_refl _) fun index hidle => by cases hidle
  | @exchange t index control test expected =>
    obtain ⟨hsplit, hle⟩ := h.seen t index control
    have hword_le := h.word_le hsplit
    have hlow : s.low = s.word := low_of_le hword_le
    subst expected
    have hindex : s.low = successes chunkCount.toNat s.returned := by
      rw [h.taken, ← hlow]
      exact (Nat.min_eq_left (Nat.le_of_lt test)).symm
    have hstore := storeLow_succ test hword_le
    refine ⟨h.fair.concat t hindex, ?_, fun _ => ?_, fun hpath => ?_, ?_⟩
    · show successes chunkCount.toNat (s.returned ++ [_]) =
        min (storeLow s.word (s.low + 1)) _
      rw [successes_concat, hstore, if_pos test, ← hindex, hlow]
      exact (Nat.min_eq_left (hlow ▸ test)).symm
    · show storeLow s.word (s.low + 1) ≤ chunkCount.toNat
      rw [hstore, ← hlow]
      exact test
    · rw [hpath] at hsplit
      cases hsplit
    · refine seen_update (s := s) h.seen ?_ fun index hidle => by cases hidle
      show s.word ≤ storeLow s.word (s.low + 1)
      rw [hstore]
      exact Nat.le_succ _
  | @fail t index control test =>
    obtain ⟨hsplit, -⟩ := h.seen t index control
    refine ⟨h.fair, h.taken, h.word_le, h.counted, ?_⟩
    refine seen_update h.seen (Nat.le_refl _) fun index heq => ?_
    cases heq
    exact ⟨hsplit, Nat.mod_le _ _⟩

/-- What was returned is never taken back. -/
theorem Step.returned_prefix {s s' : Claims τ} (h : Step split chunkCount s s') :
    s.returned <+: s'.returned := by
  cases h with
  | fetchAdd | leave | exchange => exact List.prefix_append _ _
  | load | fail => exact List.prefix_rfl

/-- Every run keeps the invariant. -/
theorem Reached.inv {s : Claims τ} (h : Reached split chunkCount s)
    (hwrap : split = false → s.returned.length < 2 ^ 64) : Inv split chunkCount s := by
  induction h with
  | refl => exact start_inv
  | tail _ hstep ih =>
    have hgrows := hstep.returned_prefix.length_le
    exact (ih fun hpath => lt_of_le_of_lt hgrows (hwrap hpath)).step hstep hwrap

omit [DecidableEq τ] in
/-- `loadClaimedChunks` counts the successful claims. -/
theorem Inv.loadClaimedChunks_eq {s : Claims τ} (h : Inv split chunkCount s) :
    s.loadClaimedChunks split chunkCount = successes chunkCount.toNat s.returned := by
  have hclaimed : (if split then s.low else s.word) = s.word := by
    split
    · rename_i hsplit
      exact low_of_le (h.word_le hsplit)
    · rfl
  rw [h.taken]
  unfold loadClaimedChunks
  rw [hclaimed]
  dsimp only
  split
  · rename_i hlt
    exact (Nat.min_eq_left (Nat.le_of_lt hlt)).symm
  · rename_i hge
    exact (Nat.min_eq_right (Nat.not_lt.mp hge)).symm

/-- Each operation is a claim of the machine, or it changes nothing that others can see. -/
theorem claim_simulated {lg : Logger τ} {m : State τ} {s s' : Claims τ}
    (h : Inv lg.split chunkCount s) (hcount : lg.segment.chunkCount = chunkCount.toNat)
    (hcursor : m.cursor = s.word) (hstep : Step lg.split chunkCount s s')
    (hwrap : lg.split = false → s'.returned.length < 2 ^ 64) :
    (s'.word = s.word ∧ s'.returned = s.returned) ∨
      ∃ t, s'.returned = s.returned ++ [(t, (claimChunkIndex lg t m).1)] ∧
        (claimChunkIndex lg t m).2.cursor = s'.word := by
  cases hstep with
  | fetchAdd t path control =>
    have hword : s.word + 1 < 2 ^ 64 := by
      have hlt := hwrap path
      unfold answered at hlt
      rw [List.length_append] at hlt
      rw [h.counted path]
      exact hlt
    refine Or.inr ⟨t, ?_, ?_⟩
    · show s.returned ++ [(t, if s.word < chunkCount.toNat then s.word else _)] = _
      unfold claimChunkIndex
      rw [hcursor, hcount, path]
      split <;> rfl
    · show _ = (s.word + 1) % 2 ^ 64
      unfold claimChunkIndex
      rw [hcursor, hcount, path, Nat.mod_eq_of_lt hword]
      split <;> rfl
  | load t path control => exact Or.inl ⟨rfl, rfl⟩
  | @leave t index control test =>
    obtain ⟨hsplit, hle⟩ := h.seen t index control
    have hfull : ¬s.word < chunkCount.toNat := Nat.not_lt.mpr (test.trans hle)
    refine Or.inr ⟨t, ?_, ?_⟩
    · unfold claimChunkIndex
      rw [hcursor, hcount, if_neg hfull, if_pos hsplit]
      rfl
    · unfold claimChunkIndex
      rw [hcursor, hcount, if_neg hfull, if_pos hsplit]
      exact hcursor
  | @exchange t index control test expected =>
    obtain ⟨hsplit, -⟩ := h.seen t index control
    have hlow : s.low = s.word := low_of_le (h.word_le hsplit)
    subst expected
    refine Or.inr ⟨t, ?_, ?_⟩
    · unfold claimChunkIndex
      rw [hcursor, hcount, ← hlow, if_pos test]
      rfl
    · show _ = storeLow s.word (s.low + 1)
      rw [storeLow_succ test (h.word_le hsplit)]
      unfold claimChunkIndex
      rw [hcursor, hcount, if_pos (hlow ▸ test)]
  | fail => exact Or.inl ⟨rfl, rfl⟩

end Claims

end Runs

/-! ### Every run -/

/-- A created segment with a chunk is sound. -/
theorem Creates.sound_of_chunk {seg : Segment} {m : Mem} (h : Creates seg m)
    (hchunk : 0 < seg.chunkCount) : seg.Sound := by
  cases h with
  | file p options h =>
    refine Segment.create_sound h ?_
    obtain ⟨-, hsize, heq⟩ := Segment.create_eq_ok h
    rw [(Prod.mk.inj heq).1] at hchunk
    by_contra hshort
    have hzero : ¬cSegmentHeaderBytes < options.segmentBytes.toNat :=
      Nat.not_lt.mpr (Nat.le_of_lt (Nat.not_le.mp hshort))
    dsimp only [Segment.initialise] at hchunk
    rw [if_neg hzero] at hchunk
    exact Nat.lt_irrefl 0 hchunk
  | memory p storage options h => exact Segment.createInMemory_sound h

/-- The body spans of a segment's chunks: aligned, inside the segment, apart from each
other. -/
theorem Creates.bodies {seg : Segment} {m : Mem} (h : Creates seg m) {i : Nat}
    (hi : i < seg.chunkCount) :
    8 ∣ seg.bodyBase i ∧ 8 ∣ seg.capacity ∧
      seg.bodyBase i + seg.capacity ≤ seg.segmentBytes ∧
      ∀ j, j < seg.chunkCount → j ≠ i → seg.bodyBase i + seg.capacity ≤ seg.bodyBase j ∨
        seg.bodyBase j + seg.capacity ≤ seg.bodyBase i := by
  have hs := h.sound_of_chunk (Nat.zero_lt_of_lt hi)
  have hbase : ∀ j, 8 ∣ seg.bodyBase j := by
    intro j
    unfold Segment.bodyBase Segment.chunkBase
    exact Nat.dvd_add (Nat.dvd_add hs.headerBytes_dvd (Dvd.dvd.mul_left hs.chunkBytes_dvd j))
      (by decide)
  have hbefore : ∀ {i j}, i < j → seg.bodyBase i + seg.capacity ≤ seg.bodyBase j := by
    intro i j hlt
    rw [hs.bodyBase_add]
    exact (seg.chunkBase_add_le hlt).trans (Nat.le_add_right _ _)
  refine ⟨hbase i, hs.capacity_dvd, ?_, fun j hj hne => ?_⟩
  · rw [hs.bodyBase_add]
    exact hs.chunk_inside hi
  · rcases Nat.lt_or_gt_of_ne hne with hlt | hgt
    · exact Or.inr (hbefore hlt)
    · exact Or.inl (hbefore hgt)

/-- One claim of the first of two chunks. -/
def oneClaim : Claims Unit := ({ Claims.start with word := 1 }).answered () 0

theorem oneClaim_reached : Claims.Reached false 2 oneClaim :=
  Relation.ReflTransGen.single (Claims.Step.fetchAdd () rfl rfl)

/-- On the 64-bit path `m` more claims bring the cursor up by `m`, modulo its width. -/
theorem claims_run (m : Nat) {s : Claims Unit} (hreached : Claims.Reached false 1 s)
    (hidle : s.control () = .idle) (hword : s.word < 2 ^ 64) :
    ∃ s', Claims.Reached false 1 s' ∧ s'.control () = .idle ∧
      s'.word = (s.word + m) % 2 ^ 64 ∧ s.returned <+: s'.returned := by
  induction m with
  | zero => exact ⟨s, hreached, hidle, (Nat.mod_eq_of_lt hword).symm, List.prefix_rfl⟩
  | succ m ih =>
    obtain ⟨s', hreached', hidle', hword', hprefix⟩ := ih
    refine ⟨_, hreached'.tail (.fetchAdd () rfl hidle'), rfl, ?_,
      hprefix.trans (List.prefix_append _ _)⟩
    show (s'.word + 1) % 2 ^ 64 = _
    rw [hword', Nat.mod_add_mod, Nat.add_assoc]

end Sub0Log.System
