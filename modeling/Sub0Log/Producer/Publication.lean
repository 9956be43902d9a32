import Sub0Log.Producer.Writer

/-!
# Publications

A `Publication` is what has to be true for `w` to be published behind the records of a
quiet chunk: there is room, its records are well formed, it is one of the expected ones
and the next outcome of its thread. From there on the code copies payloads
(`copyPayload_meets`), commits the records behind the first (`commitHead_meets`) and last of
all the first (`publish_meets`), whose head word makes everything visible. A publication of
one record is `storeRecord_meets`.
-/

open Bytes Interleaving

namespace Sub0Log.Producer

open Wire

variable {τ : Type}

namespace Setting

variable (S : Setting τ)

/-- The site of a Message has been defined. -/
def Known (w : Written) (s : State τ) : Prop := ∀ m, w = .message m → s.Defined S.lg m.siteId

/-- `w` may be published in chunk `c`, whose memory is that of `m`. -/
structure Publication (t : τ) (h : List (Event τ)) (c : Nat) (m : Mem) (w : Written) : Prop where
  quiet : S.QuietIn t h c m
  fits : sizes (S.lg.segment.entries (writtenIn S.lg.segment c h)) +
    sizes (S.lg.segment.nextEntries (writtenIn S.lg.segment c h) w) ≤ S.lg.segment.capacity
  wf : ∀ e ∈ S.lg.segment.nextEntries (writtenIn S.lg.segment c h) w, e.Wf
  expected : S.Expected w
  follows : ∀ m, w = .message m →
    S.lg.Follows (S.emits t) (outcomes h ++ [.written m])

/-- Where the first record goes. -/
def frontierAt (h : List (Event τ)) (c : Nat) : Nat :=
  S.lg.segment.frontier c (writtenIn S.lg.segment c h)

/-- The records of a publication with their addresses. -/
def placed (h : List (Event τ)) (c : Nat) (w : Written) : List (Nat × Entry) :=
  place (S.frontierAt h c) (S.lg.segment.nextEntries (writtenIn S.lg.segment c h) w)

variable {S} {t : τ} {h : List (Event τ)} {c : Nat} {s s' : State τ} {m : Mem} {w : Written}
  {W : Nat → Prop} {R : WriterCache → Prop}

/-- A publication into chunk `c` is one more of it. -/
theorem writtenIn_committed (h : List (Event τ)) {a : Nat} (ha : S.lg.segment.InChunk c a)
    (t : τ) (w : Written) : writtenIn S.lg.segment c (h ++ [.committed t a w]) =
      writtenIn S.lg.segment c h ++ [w] := by
  unfold writtenIn
  rw [filterMap_concat, show Event.writtenIn? S.lg.segment c (.committed t a w) = some w from
    if_pos (S.sound.chunkOf_eq ha)]
  rfl

/-- The writer has been moved on by as many reservations as the publication has records. -/
theorem writerAt_committed (h : List (Event τ)) {a : Nat} (ha : S.lg.segment.InChunk c a)
    (t : τ) (w : Written) : S.writerAt (h ++ [.committed t a w]) c =
      ((S.lg.segment.nextEntries (writtenIn S.lg.segment c h) w).map
        fun e => e.payload.length).foldl ChunkWriter.advance (S.writerAt h c) := by
  unfold writerAt
  rw [writtenIn_committed h ha, ChunkWriter.foldl_advance, entries_concat, sizes_append,
    List.length_append, UInt16.ofNat_add, List.map_map, List.length_map]
  rfl

theorem Known.mono (hknown : S.Known w s) (htrace : s.trace <+: s'.trace) : S.Known w s' :=
  fun m heq => (hknown m heq).mono htrace

namespace Publication

/-- The stores of a publication. -/
def plan (hp : S.Publication t h c m w) :
    Plan S.lg.segment c (S.lg.threadId t) (writtenIn S.lg.segment c h) :=
  recordPlan S.sound hp.quiet w

/-- The records lie in the body, behind the last record. -/
theorem placed_inside (hp : S.Publication t h c m w) {p : Nat × Entry}
    (hmem : p ∈ S.placed h c w) :
    S.frontierAt h c ≤ p.1 ∧ ∀ x, S.frontierAt h c ≤ x → x < p.1 + p.2.size →
      S.lg.segment.InChunk c x := by
  obtain ⟨hge, hle, -⟩ := mem_place hmem
  have hfits := hp.fits
  have hbody := S.sound.bodyBase_add c
  have hhead : S.lg.segment.bodyBase c = S.lg.segment.chunkBase c + sizeofChunkHeader := rfl
  have hfront : S.frontierAt h c = S.lg.segment.bodyBase c +
    sizes (S.lg.segment.entries (writtenIn S.lg.segment c h)) := rfl
  exact ⟨hge, fun x h₁ h₂ => ⟨by omega, by omega⟩⟩

theorem allows_payload (hp : S.Publication t h c m w) {p : Nat × Entry}
    (hmem : p ∈ S.placed h c w) :
    hp.plan.Allows (Range (p.1 + 8) p.2.payload.length) := by
  obtain ⟨hge, hinside⟩ := hp.placed_inside hmem
  have hle := le_paddedPayload p.2.payload.length
  have hsize : p.2.size = 8 + paddedPayload p.2.payload.length := rfl
  intro x hx
  obtain ⟨h₁, h₂⟩ := hx
  refine ⟨hinside x (by omega) (by omega), fun hkeep => ?_⟩
  have htag : x = S.frontierAt h c + 6 ∨ x = S.frontierAt h c + 7 := hkeep
  omega

/-- The head words of the records behind the first. -/
theorem allows_head (hp : S.Publication t h c m w) {p : Nat × Entry}
    (hmem : p ∈ S.placed h c w) (hlater : S.frontierAt h c + 8 ≤ p.1) :
    hp.plan.Allows (Range p.1 8) := by
  obtain ⟨hge, hinside⟩ := hp.placed_inside hmem
  have hsize := p.2.size_pos
  intro x hx
  obtain ⟨h₁, h₂⟩ := hx
  refine ⟨hinside x (by omega) (by omega), fun hkeep => ?_⟩
  have htag : x = S.frontierAt h c + 6 ∨ x = S.frontierAt h c + 7 := hkeep
  omega

/-- The low half of the first head word has no part of its tag. -/
theorem allows_low (hp : S.Publication t h c m w) {p : Nat × Entry}
    (hmem : p ∈ S.placed h c w) : hp.plan.Allows (Range (S.frontierAt h c) 4) := by
  obtain ⟨hge, hinside⟩ := hp.placed_inside hmem
  have hsize := p.2.size_pos
  intro x hx
  obtain ⟨h₁, h₂⟩ := hx
  refine ⟨hinside x h₁ (by omega), fun hkeep => ?_⟩
  have htag : x = S.frontierAt h c + 6 ∨ x = S.frontierAt h c + 7 := hkeep
  omega

/-- When all head words and payloads are stored, everything is. -/
theorem complete (hp : S.Publication t h c m w) {x : Nat}
    (hx : ∀ p ∈ S.placed h c w, ¬(p.1 ≤ x ∧ x < p.1 + 8 + p.2.payload.length)) :
    hp.plan.after x = hp.plan.before x := by
  have hfits := hp.fits
  refine store_encode_of_uncovered (fun y h₁ h₂ => hp.quiet.zero y h₁ ?_) hx
  unfold Segment.frontier at h₂
  omega

/-- The record in front of a publication's others. -/
theorem first_placed {e : Entry} {rest : List Entry}
    (hentries : S.lg.segment.nextEntries (writtenIn S.lg.segment c h) w = e :: rest) :
    (S.frontierAt h c, e) ∈ S.placed h c w := by
  unfold placed
  rw [hentries]
  exact List.mem_cons_self

/-- A head word in two halves. -/
theorem halves (word : Nat) : leBytes 4 (word % 2 ^ 32) ++ leBytes 4 (word / 2 ^ 32) =
    leBytes 8 word := by
  have hlow : leBytes 4 (word % 2 ^ 32) = leBytes 4 word := leBytes_mod 4 word
  rw [hlow]
  exact (leBytes_add 4 4 word).symm

/-- The two halves of a planned head word. -/
theorem slice_halves {after : Mem} {a word : Nat} (h : after.slice a 8 = leBytes 8 word) :
    after.slice a 4 = leBytes 4 (word % 2 ^ 32) ∧
      after.slice (a + 4) 4 = leBytes 4 (word / 2 ^ 32) := by
  rw [show (8 : Nat) = 4 + 4 from rfl, Mem.slice_add, show 4 + 4 = 8 from rfl, ← halves] at h
  exact List.append_inj h (by rw [Mem.slice_length, leBytes_length])

/-! ### Payloads and the records behind the first -/

variable [DecidableEq τ]

/-- The payload of a record is copied. -/
theorem copyPayload_meets (hp : S.Publication t h c m w) {p : Nat × Entry}
    (hmem : p ∈ S.placed h c w) (hW : hp.plan.Allows W) :
    S.Meets t (S.Writing t h c hp.plan.before hp.plan.after W R)
      (copyBytes (p.1 + 8) p.2.payload) fun _ =>
      S.Writing t h c hp.plan.before hp.plan.after
        (fun x => W x ∨ Range (p.1 + 8) p.2.payload.length x) R :=
  copyBytes_meets hp.plan (hp.allows_payload hmem) (slice_store_payload hmem) hW

/-- A record behind the first is committed. -/
theorem commitHead_meets (hp : S.Publication t h c m w) {p : Nat × Entry}
    (hmem : p ∈ S.placed h c w) (hlater : S.frontierAt h c + 8 ≤ p.1) (hW : hp.plan.Allows W) :
    S.Meets t (S.Writing t h c hp.plan.before hp.plan.after W R)
      (S.lg.storeHeadWord p.1 p.2.head.pack none) fun _ =>
      S.Writing t h c hp.plan.before hp.plan.after (fun x => W x ∨ Range p.1 8 x) R := by
  have hallows := hp.allows_head hmem hlater
  have hslice : hp.plan.after.slice p.1 8 = leBytes 8 p.2.head.pack := slice_store_head hmem
  obtain ⟨hlow, hhigh⟩ := slice_halves hslice
  unfold Logger.storeHeadWord
  by_cases hsplit : S.lg.split = true
  · rw [if_pos hsplit]
    have hallowsLow : hp.plan.Allows (Range p.1 4) := fun x hx =>
      hallows x ⟨hx.1, by have := hx.2; omega⟩
    have hallowsHigh : hp.plan.Allows (Range (p.1 + 4) 4) := fun x hx =>
      hallows x ⟨by have := hx.1; omega, by have := hx.2; omega⟩
    have hsemLow : ∀ s r s', sem S.lg t (Op.storeLow32 p.1 (p.2.head.pack % 2 ^ 32)) s r s' →
        s' = { s with mem := s.mem.store p.1 (leBytes 4 (p.2.head.pack % 2 ^ 32)) } :=
      fun _ _ _ hstep => hstep
    have hsemHigh : ∀ s r s',
        sem S.lg t (Op.storeHigh32 p.1 (p.2.head.pack / 2 ^ 32) none) s r s' →
        s' = { s with mem := s.mem.store (p.1 + 4) (leBytes 4 (p.2.head.pack / 2 ^ 32)) } := by
      intro s r s' hstep
      have hs' : s' = { s with
        mem := s.mem.store (p.1 + 4) (leBytes 4 (p.2.head.pack / 2 ^ 32))
        trace := s.trace ++ [] } := hstep
      rwa [List.append_nil] at hs'
    refine Spec.Triple.bind (store_meets hsemLow hp.plan hW ?_ ?_) fun _ =>
      Spec.Triple.conseq (store_meets hsemHigh hp.plan (hW.or ?_) ?_ ?_) (fun _ _ hP => hP)
        fun _ s _ hP => hP.congr fun x => ?_
    · rwa [leBytes_length]
    · rwa [leBytes_length]
    · rwa [leBytes_length]
    · rwa [leBytes_length]
    · rwa [leBytes_length]
    · rw [leBytes_length, leBytes_length]
      unfold Range
      constructor
      · rintro ((hx | hx) | hx)
        · exact Or.inl hx
        · exact Or.inr ⟨hx.1, by omega⟩
        · exact Or.inr ⟨by omega, by omega⟩
      · rintro (hx | hx)
        · exact Or.inl (Or.inl hx)
        · by_cases hhalf : x < p.1 + 4
          · exact Or.inl (Or.inr ⟨hx.1, hhalf⟩)
          · exact Or.inr ⟨by omega, by omega⟩
  · rw [if_neg hsplit]
    have hsem : ∀ s r s', sem S.lg t (Op.store64 p.1 p.2.head.pack none) s r s' →
        s' = { s with mem := s.mem.store p.1 (leBytes 8 p.2.head.pack) } := by
      intro s r s' hstep
      have hs' : s' = { s with
        mem := s.mem.store p.1 (leBytes 8 p.2.head.pack)
        trace := s.trace ++ [] } := hstep
      rwa [List.append_nil] at hs'
    have hstore := @store_meets τ S _ t h c W R _ _ _ hsem hp.plan hW
      (by rwa [leBytes_length]) (by rwa [leBytes_length])
    rw [leBytes_length] at hstore
    exact hstore

/-! ### The first head word -/

omit [DecidableEq τ] in
/-- The chunk is quiet again, one publication longer. -/
theorem quiet_concat (hp : S.Publication t h c m w)
    (hm : ∀ x, S.lg.segment.InChunk c x → s.mem x = hp.plan.after x)
    (hinside : S.lg.segment.InChunk c (S.frontierAt h c)) :
    S.QuietIn t (h ++ [.committed t (S.frontierAt h c) w]) c s.mem := by
  unfold QuietIn
  rw [writtenIn_committed h hinside]
  exact (hp.quiet.extend S.sound hp.fits hp.wf).congr S.sound hm

/-- A store that ends with the tag of the first head word: everything becomes visible. -/
theorem publishing_meets (hp : S.Publication t h c m w) {op : Op} {a : Nat} {bs : List UInt8}
    (hsem : ∀ s r s', sem S.lg t op s r s' → s' = { s with
      mem := s.mem.store a bs
      trace := s.trace ++ [.committed t (S.frontierAt h c) w] })
    (hrange : ∀ x, Range a bs.length x → S.lg.segment.InChunk c x)
    (hinside : S.lg.segment.InChunk c (S.frontierAt h c))
    (hbs : hp.plan.after.slice a bs.length = bs)
    (hcover : ∀ p ∈ S.placed h c w, ∀ x, p.1 ≤ x → x < p.1 + 8 + p.2.payload.length →
      W x ∨ Range a bs.length x) :
    S.Meets t (fun s => S.Writing t h c hp.plan.before hp.plan.after W R s ∧ S.Known w s)
      (Prog.perform op) fun _ s =>
        (S.Held t (h ++ [.committed t (S.frontierAt h c) w]) s ∧
          LastClaim (h ++ [.committed t (S.frontierAt h c) w]) c) ∧ R (s.caches t) := by
  have hstable : S.Stable t fun s =>
      S.Writing t h c hp.plan.before hp.plan.after W R s ∧ S.Known w s :=
    fun s s' henv hP => ⟨writing_stable s s' henv hP.1, hP.2.mono henv.trace⟩
  refine Spec.Triple.op hstable fun s r s' hinv hP hstep => ?_
  obtain ⟨hP, hknown⟩ := hP
  have hs' := hsem s r s' hstep
  have hmem' : s'.mem = s.mem.store a bs := by rw [hs']
  have hhist : s'.hist t = h ++ [.committed t (S.frontierAt h c) w] := by
    rw [hs', ← hP.hist]
    exact State.hist_concat_self (by rw [hP.hist]) rfl
  -- what is stored is stored, and what is not was not going to change
  have hdone : ∀ x, S.lg.segment.InChunk c x → s'.mem x = hp.plan.after x := by
    intro x hx
    rw [hmem']
    by_cases hr : Range a bs.length x
    · exact store_of_range hbs hr
    · rw [store_of_not_range hr]
      by_cases hW : W x
      · exact hP.stored x hx hW
      · rw [hP.waiting x hx hW]
        refine (hp.complete fun p hmem hx' => ?_).symm
        exact (hcover p hmem x hx'.1 hx'.2).elim hW hr
  have hquiet := hp.quiet_concat hdone hinside
  have hlast : LastClaim (s.hist t) c := by
    rw [hP.hist]
    exact hP.last
  have houtside : ∀ x, ¬S.lg.segment.InChunk c x → s.mem.store a bs x = s.mem x :=
    fun x hx => store_of_not_range fun hr => hx (hrange x hr)
  have hclaims : claims (h ++ [Event.committed t (S.frontierAt h c) w]) = claims h := by
    unfold claims
    rw [filterMap_concat]
    exact List.append_nil _
  refine ⟨?_, ?_, ⟨⟨hhist, fun c' hc' => ?_⟩, hP.last.concat rfl⟩, ?_⟩
  · rw [hs']
    refine hinv.of_commit hlast hinside houtside ?_ hp.expected hknown fun m' heq => ?_
    · rw [hP.hist]
      refine ((hp.quiet.extend S.sound hp.fits hp.wf).congr S.sound fun x hx => ?_).toConsistent
        S.sound
      rw [← hmem']
      exact hdone x hx
    · rw [hP.hist]
      exact hp.follows m' heq
  · rw [hs']
    refine guar_of hinv.layout (fun _ _ => rfl) ⟨_, rfl, fun e he => ?_⟩ (fun x hx => ?_)
      fun _ => id
    · rw [List.mem_singleton.mp he]
      rfl
    · exact houtside x (hx c hlast.mem)
  · rw [hclaims] at hc'
    by_cases heq : c' = c
    · rw [heq]
      exact hquiet
    · have hwritten : writtenIn S.lg.segment c' (h ++ [.committed t (S.frontierAt h c) w]) =
          writtenIn S.lg.segment c' h := by
        unfold writtenIn
        rw [filterMap_concat, show Event.writtenIn? S.lg.segment c'
          (Event.committed t (S.frontierAt h c) w) = none from
            if_neg fun hchunk => heq (hchunk.symm.trans (S.sound.chunkOf_eq hinside))]
        exact List.append_nil _
      unfold QuietIn
      rw [hwritten, hmem']
      refine (hP.others c' hc' heq).congr S.sound fun x hx => houtside x fun hx' => heq ?_
      exact (S.sound.chunkOf_eq hx).symm.trans (S.sound.chunkOf_eq hx')
  · rw [hs']
    exact hP.cache

/-- **The commit**: the head word of the first record is stored last, as one word or with
the tag's half last. -/
theorem publish_meets (hp : S.Publication t h c m w) {e : Entry} {rest : List Entry}
    (hentries : S.lg.segment.nextEntries (writtenIn S.lg.segment c h) w = e :: rest)
    (hW : hp.plan.Allows W)
    (hcover : ∀ p ∈ S.placed h c w, ∀ x, p.1 ≤ x → x < p.1 + 8 + p.2.payload.length →
      W x ∨ Range (S.frontierAt h c) 8 x) :
    S.Meets t (fun s => S.Writing t h c hp.plan.before hp.plan.after W R s ∧ S.Known w s)
      (S.lg.storeHeadWord (S.frontierAt h c) e.head.pack (some w)) fun _ s =>
        (S.Held t (h ++ [.committed t (S.frontierAt h c) w]) s ∧
          LastClaim (h ++ [.committed t (S.frontierAt h c) w]) c) ∧ R (s.caches t) := by
  have hfirst := first_placed hentries
  obtain ⟨-, hin⟩ := hp.placed_inside hfirst
  have hsize := e.size_pos
  have hinside : S.lg.segment.InChunk c (S.frontierAt h c) :=
    hin _ (Nat.le_refl _) (Nat.lt_add_of_pos_right (lt_of_lt_of_le (by decide) hsize))
  have hslice : hp.plan.after.slice (S.frontierAt h c) 8 = leBytes 8 e.head.pack :=
    slice_store_head hfirst
  obtain ⟨hlow, hhigh⟩ := slice_halves hslice
  unfold Logger.storeHeadWord
  by_cases hsplit : S.lg.split = true
  · rw [if_pos hsplit]
    have hsemLow : ∀ s r s',
        sem S.lg t (Op.storeLow32 (S.frontierAt h c) (e.head.pack % 2 ^ 32)) s r s' →
        s' = { s with mem := s.mem.store (S.frontierAt h c) (leBytes 4 (e.head.pack % 2 ^ 32)) } :=
      fun _ _ _ hstep => hstep
    have hsemHigh : ∀ s r s',
        sem S.lg t (Op.storeHigh32 (S.frontierAt h c) (e.head.pack / 2 ^ 32) (some w)) s r s' →
        s' = { s with
          mem := s.mem.store (S.frontierAt h c + 4) (leBytes 4 (e.head.pack / 2 ^ 32))
          trace := s.trace ++ [.committed t (S.frontierAt h c) w] } := fun _ _ _ hstep => hstep
    have hallows : hp.plan.Allows
        (Range (S.frontierAt h c) (leBytes 4 (e.head.pack % 2 ^ 32)).length) := by
      rw [leBytes_length]
      exact hp.allows_low hfirst
    refine Spec.Triple.bind (frame_of_trace (fun _ _ htrace hknown => hknown.mono htrace)
      (store_meets hsemLow hp.plan hW hallows ?_)) fun _ =>
        hp.publishing_meets hsemHigh ?_ hinside ?_ ?_
    · rwa [leBytes_length]
    · rw [leBytes_length]
      rintro x ⟨h₁, h₂⟩
      refine hin x (le_trans (Nat.le_add_right _ 4) h₁) (lt_of_lt_of_le h₂ ?_)
      rw [Nat.add_assoc]
      exact Nat.add_le_add_left hsize _
    · rwa [leBytes_length]
    · rw [leBytes_length, leBytes_length]
      intro p hmem x h₁ h₂
      rcases hcover p hmem x h₁ h₂ with hx | hx
      · exact Or.inl (Or.inl hx)
      · by_cases hhalf : x < S.frontierAt h c + 4
        · exact Or.inl (Or.inr ⟨hx.1, hhalf⟩)
        · exact Or.inr ⟨Nat.le_of_not_lt hhalf, by have := hx.2; omega⟩
  · rw [if_neg hsplit]
    refine hp.publishing_meets (fun s r s' hstep => (show s' = _ from hstep)) ?_ hinside ?_ ?_
    · rw [leBytes_length]
      rintro x ⟨h₁, h₂⟩
      exact hin x h₁ (lt_of_lt_of_le h₂ (Nat.add_le_add_left hsize _))
    · rwa [leBytes_length]
    · rwa [leBytes_length]

end Publication

/-! ### Publications of one record -/

variable [DecidableEq τ]

/-- Stores are about to be made. -/
theorem of_ready {α : Type} {x : Code α} {F : State τ → Prop} {Q : α → State τ → Prop}
    {cw : ChunkWriter} (after : Mem → Mem)
    (hx : ∀ m, S.QuietIn t h c m → S.Meets t (fun s =>
      S.Writing t h c m (after m) (fun _ => False) (fun cache => cache = S.cacheOf cw) s ∧ F s)
      x Q) : S.Meets t (fun s => S.Ready t h c cw s ∧ F s) x Q := by
  rintro s hinv ⟨hP, hF⟩
  refine hx s.mem (hP.quiet c hP.last.mem) s hinv ⟨?_, hF⟩
  exact ⟨hP.hist, hP.last, fun c' hc' _ => hP.quiet c' hc', fun _ _ hfalse => hfalse.elim,
    fun _ _ _ => rfl, hP.cache⟩

omit [DecidableEq τ] in
/-- The head word `commit` stores is that of the record. -/
theorem commit_eq (kind : RecordKind) (flags : UInt8) (payload : List UInt8)
    (publishes : Option Written) (cw : ChunkWriter) :
    S.lg.commit cw.slot kind flags payload.length publishes =
      S.lg.storeHeadWord (cw.body + cw.offset)
        (Entry.mk kind flags cw.sequence payload).head.pack publishes := rfl

/-- A record is reserved, copied and committed. -/
theorem storeRecord_meets {kind : RecordKind} {flags : UInt8} {payload : List UInt8}
    (hentries : S.lg.segment.nextEntries (writtenIn S.lg.segment c h) w =
      [⟨kind, flags, (S.writerAt h c).sequence, payload⟩])
    (hfits : (S.writerAt h c).Fits payload.length) (hnamed : kind.Named)
    (hexpected : S.Expected w)
    (hfollows : ∀ m, w = .message m → S.lg.Follows (S.emits t) (outcomes h ++ [.written m])) :
    S.Meets t
      (fun s => S.Ready t h c ((S.writerAt h c).advance payload.length) s ∧ S.Known w s)
      (copyBytes ((S.writerAt h c).slot.headWord + 8) payload >>= fun _ =>
        S.lg.commit (S.writerAt h c).slot kind flags payload.length (some w))
      fun _ => S.Idle t (h ++ [.committed t (S.frontierAt h c) w]) := by
  refine of_ready (fun m => m.store (S.frontierAt h c)
    (encode (S.lg.segment.nextEntries (writtenIn S.lg.segment c h) w))) fun m hquiet => ?_
  have hp : S.Publication t h c m w := by
    refine ⟨hquiet, ?_, ?_, hexpected, hfollows⟩
    · rw [hentries]
      exact hfits.2
    · intro e he
      rw [hentries] at he
      rw [List.mem_singleton.mp he]
      exact ⟨Nat.lt_succ_of_le hfits.1, hnamed⟩
  have hfirst := Publication.first_placed hentries
  have hplaced : S.placed h c w =
      [(S.frontierAt h c, ⟨kind, flags, (S.writerAt h c).sequence, payload⟩)] := by
    unfold placed
    rw [hentries]
    rfl
  refine Spec.Triple.bind (frame_of_trace (fun _ _ htrace hknown => hknown.mono htrace)
    (hp.copyPayload_meets hfirst fun x hfalse => hfalse.elim)) fun _ => ?_
  rw [commit_eq]
  have hpublish := @Publication.publish_meets τ S t h c m w
    (fun x => False ∨ Range (S.frontierAt h c + 8) payload.length x)
    (fun cache => cache = S.cacheOf ((S.writerAt h c).advance payload.length)) _ hp _ _ hentries
  refine Spec.Triple.conseq (hpublish ?_ ?_) (fun _ _ hP => hP) ?_
  · rintro x (hfalse | hx)
    · exact hfalse.elim
    · exact hp.allows_payload hfirst x hx
  · intro p hmem x h₁ h₂
    rw [hplaced, List.mem_singleton] at hmem
    subst hmem
    by_cases hhead : x < S.frontierAt h c + 8
    · exact Or.inr ⟨h₁, hhead⟩
    · exact Or.inl (Or.inr ⟨Nat.le_of_not_lt hhead, h₂⟩)
  · rintro _ s _ ⟨⟨hheld, hlast⟩, hcache⟩
    refine Ready.idle ⟨hheld, hlast, hcache.trans ?_⟩
    have hinside : S.lg.segment.InChunk c (S.frontierAt h c) :=
      (hp.placed_inside hfirst).2 _ (Nat.le_refl _)
        (Nat.lt_add_of_pos_right (lt_of_lt_of_le (by decide) (Entry.size_pos _)))
    rw [writerAt_committed h hinside, hentries]
    rfl

end Setting

end Sub0Log.Producer
