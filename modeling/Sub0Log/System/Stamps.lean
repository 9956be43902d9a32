import Sub0Log.Library.Ghost
import Sub0Log.Producer.Discipline
import Sub0Log.Producer.Effects
import Sub0Log.System.Launch

/-!
# Latched headers stay

A thread stores in two kinds of places: in the body of a chunk, at a reservation it was given,
and in the header of the chunk it has just claimed. So the header of a chunk that shows a record
is never stored into again.

The invariant of a run knows only that such a header is a stamped one, at some time or other; that
it is still the same one is said of a ghost (`Latch`), which keeps every header as it was at the
chunk's first publication. **`stamp_stays`** is what readers count on.
-/

open Bytes Interleaving

namespace Sub0Log.System

open Wire Producer

variable {τ : Type}

/-! ### Where an operation stores -/

/-- Where an operation stores, and what. -/
def Op.store? : Op → Option (Nat × List UInt8)
  | .storeByte a byte => some (a, [byte])
  | .store64 a word _ => some (a, leBytes 8 word)
  | .storeLow32 a half => some (a, leBytes 4 half)
  | .storeHigh32 a half _ => some (a + 4, leBytes 4 half)
  | .loadKey _ | .storeKey _ _ | .claimChunkIndex | .currentThreadId | .monotonicNow | .loadCache
  | .storeCache _ | .copyOrder _ | .countDrop _ | .countTruncation => none

section Operations

variable [DecidableEq τ] {lg : Logger τ} {t : τ} {op : Op} {s s' : State τ} {r : op.Answer}

/-- It changes nothing else. -/
theorem mem_of_sem (h : sem lg t op s r s') {x : Nat}
    (hx : ∀ st ∈ Op.store? op, ¬Range st.1 st.2.length x) : s'.mem x = s.mem x := by
  cases op with
  | storeByte | store64 | storeLow32 | storeHigh32 =>
    rw [(show s' = _ from h)]
    exact store_of_not_range (hx _ rfl)
  | claimChunkIndex =>
    rcases Setting.claimChunkIndex_cases (show (r, s') = claimChunkIndex lg t s from h) with
      ⟨-, -, rfl⟩ | ⟨-, -, rfl | rfl⟩ <;> rfl
  | loadKey | currentThreadId | loadCache | copyOrder => rw [(show s' = s from h.2)]
  | monotonicNow => rw [(show s' = s from h)]
  | _ => rw [(show s' = _ from h)]

theorem caches_of_sem (h : sem lg t op s r s') (hop : ∀ cache, op ≠ .storeCache cache) :
    s'.caches = s.caches := by
  cases op with
  | storeCache cache => exact absurd rfl (hop cache)
  | claimChunkIndex =>
    rcases Setting.claimChunkIndex_cases (show (r, s') = claimChunkIndex lg t s from h) with
      ⟨-, -, rfl⟩ | ⟨-, -, rfl | rfl⟩ <;> rfl
  | loadKey | currentThreadId | loadCache | copyOrder => rw [(show s' = s from h.2)]
  | monotonicNow => rw [(show s' = s from h)]
  | _ => rw [(show s' = _ from h)]

/-- The others' histories are untouched. -/
theorem hist_of_sem (h : sem lg t op s r s') {t' : τ} (hne : t' ≠ t) : s'.hist t' = s.hist t' := by
  obtain ⟨new, htrace, hown, -⟩ := trace_effects h
  have hnone : new.filter (fun e => e.thread = t') = [] :=
    List.filter_eq_nil_iff.mpr fun e he heq =>
      hne ((of_decide_eq_true heq).symm.trans (hown e he))
  unfold State.hist
  rw [htrace, List.filter_append, hnone, List.append_nil]

end Operations

/-! ### The ghost -/

/-- The headers, byte by byte. -/
abbrev Latch : Type := Nat → Nat → UInt8

/-- The headers of chunks in which something was published are latched. -/
def latch (seg : Segment) (s s' : State τ) (g : Latch) : Latch := fun c i =>
  if c ∈ commitChunks seg s.trace then g c i else s'.mem (seg.chunkBase c + i)

/-- A writer into the body of a chunk. -/
def InBody (seg : Segment) (w : ChunkWriter) : Prop :=
  w.valid = true → ∃ c, w.body = seg.bodyBase c ∧ w.size = seg.capacity

/-- A place for a record of `n` payload bytes in the body of a chunk. -/
def SlotInBody (seg : Segment) (slot : Reservation) (n : Nat) : Prop :=
  ∃ c, seg.bodyBase c ≤ slot.headWord ∧ slot.headWord + 8 + n ≤ seg.bodyBase c + seg.capacity

/-- The latched headers are in memory, and the writers are in bodies. -/
structure Latched (lg : Logger τ) (s : State τ × Latch) : Prop where
  latched : ∀ c ∈ commitChunks lg.segment s.1.trace, ∀ i, i < sizeofChunkHeader →
    s.1.mem (lg.segment.chunkBase c + i) = s.2 c i
  writers : ∀ t, Tagged lg (s.1.caches t) → InBody lg.segment (s.1.caches t).writer

variable [DecidableEq τ]

/-- The proof method's parameters: a thread's cache and history are its own. -/
def stamping (lg : Logger τ) : Spec τ (State τ × Latch) where
  inv := Latched lg
  env := fun t s s' => s'.1.hist t = s.1.hist t ∧ s'.1.caches t = s.1.caches t
  env_refl := fun _ _ => ⟨rfl, rfl⟩
  env_trans := fun _ _ _ _ h h' => ⟨h'.1.trans h.1, h'.2.trans h.2⟩

/-- A thread's step, the invariant of the run being known, with the ghost. -/
abbrev latching (S : Setting τ) : Sem Op.Answer τ (State τ × Latch) :=
  ghosted S.Inv (latch S.lg.segment) (sem S.lg)

/-- An assertion about a thread's history and cache. -/
def At (t : τ) (P : List (Event τ) → WriterCache → Prop) (s : State τ × Latch) : Prop :=
  P (s.1.hist t) (s.1.caches t)

section Stamping

variable {S : Setting τ} {t : τ} {α : Type} {P P' : List (Event τ) → WriterCache → Prop}

theorem at_stable : (stamping S.lg).Stable t (At t P) := by
  rintro s s' ⟨hhist, hcache⟩ hP
  unfold At at hP ⊢
  rw [hhist, hcache]
  exact hP

/-- Code of thread `t` between assertions. -/
abbrev Stamps (S : Setting τ) (t : τ) (P : List (Event τ) → WriterCache → Prop) (x : Code α)
    (Q : α → List (Event τ) → WriterCache → Prop) : Prop :=
  (stamping S.lg).Triple (latching S) t (At t P) x fun a => At t (Q a)

/-- The bytes of no latched header. -/
def Spares (seg : Segment) (s : State τ) (a n : Nat) : Prop :=
  ∀ c ∈ commitChunks seg s.trace, ∀ i, i < sizeofChunkHeader → ¬Range a n (seg.chunkBase c + i)

omit [DecidableEq τ] in
/-- Whoever spares the latched headers keeps them. -/
theorem latched_of_step {s s' : State τ × Latch} (hinv : Latched S.lg s)
    (hghost : s'.2 = latch S.lg.segment s.1 s'.1 s.2)
    (hmem : ∀ c ∈ commitChunks S.lg.segment s.1.trace, ∀ i, i < sizeofChunkHeader →
      s'.1.mem (S.lg.segment.chunkBase c + i) = s.1.mem (S.lg.segment.chunkBase c + i)) :
    ∀ c ∈ commitChunks S.lg.segment s'.1.trace, ∀ i, i < sizeofChunkHeader →
      s'.1.mem (S.lg.segment.chunkBase c + i) = s'.2 c i := by
  intro c _ i hi
  rw [hghost]
  unfold latch
  by_cases hold : c ∈ commitChunks S.lg.segment s.1.trace
  · rw [if_pos hold, hmem c hold i hi]
    exact hinv.latched c hold i hi
  · rw [if_neg hold]

/-- An operation that stores elsewhere. -/
theorem perform_stamps {op : Op} {Q : op.Answer → List (Event τ) → WriterCache → Prop}
    (hop : ∀ cache, op ≠ .storeCache cache)
    (hspares : ∀ s, S.Inv s → P (s.hist t) (s.caches t) → ∀ st ∈ Op.store? op,
      Spares S.lg.segment s st.1 st.2.length)
    (hpost : ∀ s r s', S.Inv s → P (s.hist t) (s.caches t) → sem S.lg t op s r s' →
      Q r (s'.hist t) (s.caches t)) : Stamps S t P (Prog.perform op) Q := by
  refine Spec.Triple.op at_stable fun s r s' hinv hP ⟨hsem, hS, hS', hghost⟩ => ?_
  have hcaches := caches_of_sem hsem hop
  refine ⟨⟨latched_of_step hinv hghost fun c hc i hi => ?_, fun t' => ?_⟩, fun t' hne => ?_, ?_⟩
  · exact mem_of_sem hsem fun st hst => hspares s.1 hS hP st hst c hc i hi
  · rw [hcaches]
    exact hinv.writers t'
  · exact ⟨hist_of_sem hsem hne, congrFun hcaches t'⟩
  · unfold At
    rw [hcaches]
    exact hpost s.1 r s'.1 hS hP hsem

/-- One that stores nothing, of an assertion about the cache alone. -/
theorem silent_stamps {op : Op} {P : WriterCache → Prop} (hop : ∀ cache, op ≠ .storeCache cache)
    (hstore : Op.store? op = none) :
    Stamps S t (fun _ => P) (Prog.perform op) fun _ _ => P :=
  perform_stamps hop (fun _ _ _ st hst => by rw [hstore] at hst; cases hst) fun _ _ _ _ hP _ => hP

omit [DecidableEq τ] in
/-- No header is in a body. -/
theorem header_apart (hs : S.lg.segment.Sound) (c c' : Nat) {i x : Nat} (hi : i < sizeofChunkHeader)
    (h₁ : S.lg.segment.bodyBase c' ≤ x)
    (h₂ : x < S.lg.segment.bodyBase c' + S.lg.segment.capacity) :
    S.lg.segment.chunkBase c + i ≠ x := by
  have hgt := hs.chunkBytes_gt
  have hend := hs.bodyBase_add c'
  have hbody : S.lg.segment.bodyBase c' = S.lg.segment.chunkBase c' + sizeofChunkHeader := rfl
  rcases Nat.lt_trichotomy c c' with hlt | rfl | hlt
  · have hbase := S.lg.segment.chunkBase_add_le hlt
    omega
  · omega
  · have hbase := S.lg.segment.chunkBase_add_le hlt
    omega

omit [DecidableEq τ] in
/-- A body is no header. -/
theorem spares_of_body {s : State τ} {slot : Reservation} {n a k : Nat}
    (h : SlotInBody S.lg.segment slot n) (h₁ : slot.headWord ≤ a)
    (h₂ : a + k ≤ slot.headWord + 8 + n) : Spares S.lg.segment s a k := by
  obtain ⟨c', hbase, hend⟩ := h
  intro c _ i hi hrange
  have h₃ := hrange.1
  have h₄ := hrange.2
  exact header_apart S.sound c c' hi (by omega) (by omega) rfl

/-! ### Copies -/

/-- A copy to where every byte may be stored. -/
theorem copyBytes_stamps {a : Nat} {bytes : List UInt8}
    (hspares : ∀ s, S.Inv s → P (s.hist t) (s.caches t) → ∀ i, i < bytes.length →
      Spares S.lg.segment s (a + i) 1) :
    Stamps S t P (copyBytes a bytes) fun _ => P := by
  have hstore : ∀ order : List Nat, (∀ i ∈ order, i < bytes.length) →
      Stamps S t P (storeBytes a bytes order) fun _ => P := by
    intro order hin
    induction order with
    | nil => exact Spec.Triple.pure fun _ _ hP => hP
    | cons i rest ih =>
      refine Spec.Triple.bind (Q := fun _ => At t P) ?_ fun _ =>
        ih fun j hj => hin j (List.mem_cons_of_mem _ hj)
      refine perform_stamps nofun (fun s hS hP st hst => ?_) fun s r s' _ hP hsem => ?_
      · obtain rfl := Option.some.inj hst
        exact hspares s hS hP i (hin i List.mem_cons_self)
      · have hs' : s'.hist t = s.hist t := State.hist_congr (by rw [(show s' = _ from hsem)]) t
        rw [hs']
        exact hP
  have horder : Stamps S t P (copyOrder bytes.length) fun order h cache =>
      (∀ i ∈ order, i < bytes.length) ∧ P h cache := by
    refine perform_stamps nofun (fun _ _ _ st hst => by cases hst) fun s r s' _ hP hsem => ?_
    obtain ⟨hperm, rfl⟩ : List.Perm r (List.range bytes.length) ∧ s' = s := hsem
    exact ⟨fun i hi => List.mem_range.mp (hperm.mem_iff.mp hi), hP⟩
  exact Spec.Triple.bind horder fun order => Spec.Triple.of_pure (hstore order)

/-! ### Claims -/

/-- Chunk `c` is this thread's, and shows nothing yet. -/
def Blank (seg : Segment) (c : Nat) (h : List (Event τ)) : Prop :=
  c ∈ claims h ∧ c ∉ commitChunks seg h

/-- What was published was published by a thread. -/
theorem commitChunks_hist {seg : Segment} {s : State τ} {c : Nat}
    (hc : c ∈ commitChunks seg s.trace) : ∃ t, c ∈ commitChunks seg (s.hist t) := by
  obtain ⟨e, he, hchunk⟩ := List.mem_filterMap.mp hc
  exact ⟨e.thread, List.mem_filterMap.mpr ⟨e, State.mem_hist.mpr ⟨he, rfl⟩, hchunk⟩⟩

/-- The header of a blank chunk is not latched. -/
theorem spares_of_blank {s : State τ} (hS : S.Inv s) {c : Nat}
    (h : Blank S.lg.segment c (s.hist t)) {i : Nat} (hi : i < sizeofChunkHeader) :
    Spares S.lg.segment s (S.lg.segment.chunkBase c + i) 1 := by
  have hgt := S.sound.chunkBytes_gt
  intro c' hc' i' hi' hrange
  obtain ⟨t', ht'⟩ := commitChunks_hist hc'
  -- another chunk: nobody but this thread could have published in this one
  have hne : c' ≠ c := by
    rintro rfl
    obtain rfl := hS.layout.exclusive t' t c' (hS.layout.placed t' c' ht') h.1
    exact h.2 ht'
  have h₃ := hrange.1
  have h₄ := hrange.2
  rcases Nat.lt_or_gt_of_ne hne with hlt | hlt
  · have hbase := S.lg.segment.chunkBase_add_le hlt
    omega
  · have hbase := S.lg.segment.chunkBase_add_le hlt
    omega

/-- A claim gives a blank chunk. -/
theorem claimIndex_stamps {P : WriterCache → Prop} :
    Stamps S t (fun _ => P) claimIndex fun index h cache =>
      (index < S.lg.segment.chunkCount → Blank S.lg.segment index h) ∧ P cache := by
  refine perform_stamps nofun (fun _ _ _ st hst => by cases hst) fun s r s' hS hP hsem => ?_
  refine ⟨fun hlt => ?_, hP⟩
  rcases Setting.claimChunkIndex_cases (show (r, s') = claimChunkIndex S.lg t s from hsem) with
    ⟨hroom, rfl, hs'⟩ | ⟨-, rfl, -⟩
  · have hhist : s'.hist t = s.hist t ++ [.claimed t s.cursor] :=
      State.hist_concat_self (e := .claimed t s.cursor) (by rw [hs']) rfl
    have hfree : s.cursor ∉ claims (s.hist t) := by
      intro hclaimed
      have hcount := (hS.layout.claimed s.cursor).mp ⟨t, hclaimed⟩
      exact Nat.lt_irrefl _ (lt_of_lt_of_le hcount (Nat.min_le_left _ _))
    rw [hhist]
    refine ⟨?_, fun hc => ?_⟩
    · unfold claims
      rw [filterMap_concat]
      exact List.mem_append_right _ List.mem_cons_self
    · unfold commitChunks at hc
      rw [filterMap_concat] at hc
      change s.cursor ∈ commitChunks S.lg.segment (s.hist t) ++ [] at hc
      rw [List.append_nil] at hc
      exact hfree (hS.layout.placed t _ hc)
  · exact absurd hlt (Nat.lt_irrefl _)

theorem claimChunk_stamps {P : WriterCache → Prop} :
    Stamps S t (fun _ => P) S.lg.claimChunk fun w _ cache => InBody S.lg.segment w ∧ P cache := by
  refine Spec.Triple.bind claimIndex_stamps fun index => ?_
  split
  · exact Spec.Triple.pure fun _ _ hP =>
      ⟨fun hvalid => absurd hvalid (by decide), hP.2⟩
  · have hlt : index < S.lg.segment.chunkCount := Nat.lt_of_not_le ‹_›
    refine Spec.Triple.bind (Q := fun _ => At t fun h cache => Blank S.lg.segment index h ∧ P cache)
      ?_ fun owner => Spec.Triple.bind (Q := fun _ => At t fun h cache =>
        Blank S.lg.segment index h ∧ P cache) ?_ fun time => ?_
    · refine perform_stamps nofun (fun _ _ _ st hst => by cases hst) fun s r s' _ hP hsem => ?_
      obtain ⟨-, rfl⟩ : r = S.lg.threadId t ∧ s' = s := hsem
      exact ⟨hP.1 hlt, hP.2⟩
    · refine perform_stamps nofun (fun _ _ _ st hst => by cases hst) fun s r s' _ hP hsem => ?_
      obtain rfl : s' = s := hsem
      exact hP
    · -- only the header of the chunk that was claimed is stored into
      refine Spec.Triple.bind (copyBytes_stamps fun s hS hP i hi =>
        spares_of_blank hS hP.1 (by rwa [ChunkHeader.toBytes_length] at hi)) fun _ => ?_
      exact Spec.Triple.pure fun _ _ hP => ⟨fun _ => ⟨index, rfl, rfl⟩, hP.2⟩

/-! ### The discipline -/

/-- The thread's cache is its Logger's, if `b` says so. -/
def OwnCache (lg : Logger τ) (b : Bool) (cache : WriterCache) : Prop := b = true → Tagged lg cache

theorem storeCache_stamps {P : List (Event τ) → WriterCache → Prop} {cache : WriterCache}
    (htagged : Tagged S.lg cache) (hwriter : InBody S.lg.segment cache.writer) :
    Stamps S t P (storeCache cache) fun _ _ => OwnCache S.lg true := by
  refine Spec.Triple.op at_stable fun s r s' hinv _ ⟨hsem, _, _, hghost⟩ => ?_
  have hs' : s'.1 = { s.1 with caches := Function.update s.1.caches t cache } := hsem
  have hmem : s'.1.mem = s.1.mem := by rw [hs']
  have hself : s'.1.caches t = cache := by
    rw [hs']
    exact Function.update_self ..
  have hother : ∀ t', t' ≠ t → s'.1.caches t' = s.1.caches t' := by
    intro t' hne
    rw [hs']
    exact Function.update_of_ne hne _ _
  have htrace : s'.1.trace = s.1.trace := by rw [hs']
  refine ⟨⟨latched_of_step hinv hghost (fun c _ i _ => congrFun hmem _), fun t' => ?_⟩,
    fun t' hne => ⟨State.hist_congr htrace t', hother t' hne⟩, fun _ => ?_⟩
  · by_cases heq : t' = t
    · rw [heq, hself]
      exact fun _ => hwriter
    · rw [hother t' heq]
      exact hinv.writers t'
  · rw [hself]
    exact htagged

theorem loadCache_stamps (b : Bool) :
    (stamping S.lg).Triple (latching S) t (At t fun _ => OwnCache S.lg b) loadCache
      fun cache s => At t (fun _ => OwnCache S.lg b) s ∧ (b = true → Tagged S.lg cache) ∧
        (Tagged S.lg cache → InBody S.lg.segment cache.writer ∧
          At t (fun _ => OwnCache S.lg true) s) := by
  refine Spec.Triple.op at_stable fun s r s' hinv hP ⟨hsem, hS, hS', hghost⟩ => ?_
  obtain ⟨rfl, hs'⟩ : r = s.1.caches t ∧ s'.1 = s.1 := hsem
  have hsame : ∀ {P : List (Event τ) → WriterCache → Prop}, At t P s → At t P s' := by
    intro P hP
    unfold At
    rw [hs']
    exact hP
  refine ⟨⟨latched_of_step hinv hghost (fun c _ i _ => by rw [hs']), ?_⟩, fun t' _ => ?_,
    hsame hP, hP, fun htagged => ⟨hinv.writers t htagged, ?_⟩⟩
  · rw [hs']
    exact hinv.writers
  · show s'.1.hist t' = s.1.hist t' ∧ s'.1.caches t' = s.1.caches t'
    rw [hs']
    exact ⟨rfl, rfl⟩
  · exact hsame fun _ => htagged

/-- A reservation from a writer into a body is in the body. -/
theorem slot_of_reserve {seg : Segment} {w w' : ChunkWriter} {n : Nat} {slot : Reservation}
    (hw : InBody seg w) (h : w.reserve n = some (slot, w')) :
    SlotInBody seg slot n ∧ InBody seg w' := by
  by_cases hfits : w.Fits n
  · rw [ChunkWriter.reserve_of_fits hfits] at h
    obtain ⟨rfl, rfl⟩ := Prod.mk.inj (Option.some.inj h)
    have hroom := hfits.2
    have hpad := le_paddedPayload n
    unfold recordFootprint at hroom
    have hvalid : w.valid = true := decide_eq_true (by omega)
    obtain ⟨c, hbody, hsize⟩ := hw hvalid
    refine ⟨⟨c, ?_, ?_⟩, fun _ => ⟨c, hbody, hsize⟩⟩
    · show seg.bodyBase c ≤ w.body + w.offset
      omega
    · show w.body + w.offset + 8 + n ≤ seg.bodyBase c + seg.capacity
      omega
  · rw [ChunkWriter.reserve_of_not_fits hfits] at h
    cases h

theorem storeHeadWord_stamps {b : Bool} {slot : Reservation} {n : Nat} (word : Nat)
    (publishes : Option Written) (hslot : SlotInBody S.lg.segment slot n) :
    Stamps S t (fun _ => OwnCache S.lg b) (S.lg.storeHeadWord slot.headWord word publishes)
      fun _ _ => OwnCache S.lg b := by
  have hstore : ∀ {op : Op} {a k : Nat} {bytes : List UInt8}, (∀ cache, op ≠ .storeCache cache) →
      Op.store? op = some (a, bytes) → bytes.length = k → slot.headWord ≤ a →
      a + k ≤ slot.headWord + 8 → Stamps S t (fun _ => OwnCache S.lg b) (Prog.perform op)
        fun _ _ => OwnCache S.lg b := by
    intro op a k bytes hop hst hk h₁ h₂
    refine perform_stamps hop (fun s _ _ st hmem => ?_) fun _ _ _ _ hP _ => hP
    obtain rfl := Option.some.inj (hst.symm.trans hmem)
    subst hk
    exact spares_of_body hslot h₁ (le_trans h₂ (Nat.le_add_right _ n))
  unfold Logger.storeHeadWord
  split
  · refine Spec.Triple.bind (hstore nofun rfl (leBytes_length 4 _) (Nat.le_refl _) (by omega))
      fun _ => ?_
    exact hstore nofun rfl (leBytes_length 4 _) (Nat.le_add_right _ 4) (by omega)
  · exact hstore nofun rfl (leBytes_length 8 _) (Nat.le_refl _) (Nat.le_refl _)

/-- The discipline: writers and reservations are in bodies. -/
def stampingDiscipline (S : Setting τ) (t : τ) :
    Discipline S.lg (stamping S.lg) (latching S) t where
  own := fun b => At t fun _ => OwnCache S.lg b
  own_any := fun _ _ _ hb => absurd hb Bool.false_ne_true
  Writer := InBody S.lg.segment
  Slot := SlotInBody S.lg.segment
  reserved := slot_of_reserve
  onLoadKey := fun _ _ => silent_stamps nofun rfl
  onStoreKey := fun _ _ => silent_stamps nofun rfl
  onMonotonicNow := fun _ => silent_stamps nofun rfl
  onCountDrop := fun _ _ => silent_stamps nofun rfl
  onCountTruncation := fun _ => silent_stamps nofun rfl
  onLoadCache := loadCache_stamps
  onStoreCache := fun _ _ => storeCache_stamps
  onClaimChunk := fun _ => claimChunk_stamps
  onCopyBytes := fun _ _ _ hslot => copyBytes_stamps fun _ _ _ _ hi =>
    spares_of_body hslot (by omega) (by omega)
  onStoreHeadWord := fun _ _ _ word publishes hslot => storeHeadWord_stamps word publishes hslot

end Stamping

/-! ### Runs -/

variable {lg : Logger τ} {L : Launch lg} {calls : τ → List (Call lg)}
  {p q : Pool Op.Answer τ (State τ) Unit}

/-- A run with its ghosts keeps the latched headers in memory. -/
theorem stamped_of_reachable {g : Latch} {p : Pool Op.Answer τ (State τ × Latch) Unit}
    (h : Reachable (latching (L.setting calls)) ⟨(L.start, g), fun t => lg.thread (calls t)⟩ p) :
    Latched lg p.shared := by
  have hstart : Latched lg (L.start, g) := by
    refine ⟨fun c hc => ?_, fun t htagged => ?_⟩
    · change c ∈ commitChunks lg.segment L.start.trace at hc
      rw [L.untouched.trace] at hc
      cases hc
    · exact absurd htagged.2 (L.untouched.caches t htagged.1)
  have hidle : ∀ t, At t (fun _ => OwnCache lg false) (L.start, g) :=
    fun _ hb => absurd hb Bool.false_ne_true
  have hthreads : ∀ t, Stamps (L.setting calls) t (fun _ => OwnCache lg false)
      (lg.thread (calls t)) fun _ _ => OwnCache lg false :=
    fun t => Discipline.thread_keeps (stampingDiscipline (L.setting calls) t) (calls t)
  exact (Spec.reachable (S := stamping lg) (p := ⟨(L.start, g), fun t => lg.thread (calls t)⟩)
    (fun _ _ => at_stable (S := L.setting calls)) hstart hidle hthreads h).1

/-- **The header of a chunk that shows a record is never stored into again.** -/
theorem stamp_stays (hp : Reachable (sem lg) (L.pool calls) p) (hpq : Reachable (sem lg) p q)
    {t : τ} {c : Nat} (hc : c ∈ commitChunks lg.segment (p.shared.hist t)) {i : Nat}
    (hi : i < sizeofChunkHeader) :
    q.shared.mem (lg.segment.chunkBase c + i) = p.shared.mem (lg.segment.chunkBase c + i) := by
  -- the run with its ghosts, up to `p` and on to `q`
  obtain ⟨g, hghosts⟩ := exists_ghosts (J := (L.setting calls).Inv) (latch lg.segment) hp
    (fun q hq => (Launch.reachable hq).1) fun _ _ => 0
  obtain ⟨g', hghosts'⟩ := exists_ghosts (J := (L.setting calls).Inv) (latch lg.segment)
    hpq (fun q hq => (Launch.reachable (hp.trans hq)).1) g
  have hthen := stamped_of_reachable hghosts
  have hnow := stamped_of_reachable (hghosts.trans hghosts')
  have hmem : c ∈ commitChunks lg.segment p.shared.trace :=
    (List.filter_sublist.filterMap _).subset hc
  -- what is latched stays latched
  obtain ⟨hmem', hsame⟩ := ghosted_invariant (latch lg.segment)
    (K := fun s g' => c ∈ commitChunks lg.segment s.trace ∧ g' c i = g c i)
    (fun t op s r s' g' hsem hK => ⟨(List.IsPrefix.filterMap _
      (Setting.trace_grows hsem)).subset hK.1, (if_pos hK.1).trans hK.2⟩)
    hghosts' ⟨hmem, rfl⟩
  exact ((hnow.latched c hmem' i hi).trans hsame).trans (hthen.latched c hmem i hi).symm

end Sub0Log.System
