import Sub0Log.Producer.Rules

/-!
# Stores into a chunk

A thread stores into the chunk it claimed last, byte by byte. `Writing h c before after W`
says how far it has got: the addresses in `W` hold what they will hold in the end
(`after`), the others what they held in the beginning (`before`).

Whatever part of the stores has been made, the chunk is consistent, as long as the commit
tag of the first head word is kept back: a `Plan` is `before`, `after` and the addresses to
`keep` back, with the proof of that (`safe`). There are two plans, `stampPlan` for a chunk
header over zeros and `recordPlan` for the records of one publication behind those of a
quiet chunk. The store that writes the tag ends the latter (`publish_meets`): it makes the
whole publication visible at once, and the chunk is quiet again.
-/

open Bytes Interleaving

namespace Sub0Log.Producer

open Wire

variable {τ : Type}

/-! ### Plans -/

/-- Stores to be made in chunk `c`. -/
structure Plan (seg : Segment) (c : Nat) (owner : UInt64) (ws : List Written) where
  before : Mem
  after : Mem
  keep : Nat → Prop
  safe : ∀ m : Mem, (∀ x, seg.InChunk c x → m x = before x ∨ m x = after x) →
    (∀ x, seg.InChunk c x → keep x → m x = before x) → Consistent seg c owner ws m

/-- These addresses may be stored into: they are in the chunk and not kept back. -/
def Plan.Allows {seg : Segment} {c : Nat} {owner : UInt64} {ws : List Written}
    (plan : Plan seg c owner ws) (W : Nat → Prop) : Prop :=
  ∀ x, W x → seg.InChunk c x ∧ ¬plan.keep x

theorem Plan.Allows.or {seg : Segment} {c : Nat} {owner : UInt64} {ws : List Written}
    {plan : Plan seg c owner ws} {W W' : Nat → Prop} (h : plan.Allows W) (h' : plan.Allows W') :
    plan.Allows fun x => W x ∨ W' x := by
  rintro x (hx | hx)
  · exact h x hx
  · exact h' x hx

/-- Any part of the header over zeros is a chunk with nothing in it. -/
theorem stamp_safe {seg : Segment} (hs : seg.Sound) (c : Nat) (owner time : UInt64)
    {ws : List Written} (hws : ws = []) (m : Mem)
    (hmix : ∀ x, seg.InChunk c x → m x = 0 ∨
      m x = Mem.store (fun _ => 0) (seg.chunkBase c) (seg.chunkHeader owner time).toBytes x) :
    Consistent seg c owner ws m := by
  subst hws
  have hbody := hs.bodyBase_add c
  have hhead : seg.bodyBase c = seg.chunkBase c + sizeofChunkHeader := rfl
  have hlength := (seg.chunkHeader owner time).toBytes_length
  have hgt := hs.chunkBytes_gt
  refine @consistent_nil seg c owner m hs time (fun i hi => ?_) fun x h₁ h₂ => ?_
  · refine (hmix _ ⟨Nat.le_add_right _ _, by omega⟩).imp_right fun h => ?_
    rw [h, Mem.store, if_pos (Nat.le_add_right _ _), Nat.add_sub_cancel_left]
  · rcases hmix x ⟨by omega, h₂⟩ with h | h
    · exact h
    · rw [h, Mem.store_of_ge (by omega)]

/-- The plan of `claimChunk`: the header over zeros. -/
def stampPlan {seg : Segment} (hs : seg.Sound) (c : Nat) (owner time : UInt64)
    {ws : List Written} (hws : ws = []) : Plan seg c owner ws where
  before := fun _ => 0
  after := Mem.store (fun _ => 0) (seg.chunkBase c) (seg.chunkHeader owner time).toBytes
  keep := fun _ => False
  safe m hmix _ := stamp_safe hs c owner time hws m hmix

/-- Any part of the records behind those of a quiet chunk, the commit tag of the first head word
apart, leaves the chunk as it is read. -/
theorem record_safe {seg : Segment} (hs : seg.Sound) {c : Nat} {owner : UInt64} {ws : List Written}
    {m : Mem} (h : Quiet seg c owner ws m) (w : Written) (m' : Mem)
    (hmix : ∀ x, seg.InChunk c x →
      m' x = m x ∨ m' x = m.store (seg.frontier c ws) (encode (seg.nextEntries ws w)) x)
    (hkeep : ∀ x, seg.InChunk c x →
      x = seg.frontier c ws + 6 ∨ x = seg.frontier c ws + 7 → m' x = m x) :
    Consistent seg c owner ws m' := by
  have hbody := hs.bodyBase_add c
  have hhead : seg.bodyBase c = seg.chunkBase c + sizeofChunkHeader := rfl
  have hfront : seg.frontier c ws = seg.bodyBase c + sizes (seg.entries ws) := rfl
  refine h.consistent hs (fun x hx hlt => ?_) fun hroom => ?_
  · refine (hmix x hx).elim id fun heq => ?_
    rw [heq, Mem.store_of_lt hlt]
  · refine ⟨?_, ?_⟩
    · rw [hkeep _ ⟨by omega, by omega⟩ (Or.inl rfl)]
      exact h.zero _ (by omega) (by omega)
    · rw [hkeep _ ⟨by omega, by omega⟩ (Or.inr rfl)]
      exact h.zero _ (by omega) (by omega)

/-- The plan of a publication: its records behind those of a quiet chunk, the commit tag
of the first head word kept back. -/
def recordPlan {seg : Segment} (hs : seg.Sound) {c : Nat} {owner : UInt64} {ws : List Written}
    {m : Mem} (h : Quiet seg c owner ws m) (w : Written) : Plan seg c owner ws where
  before := m
  after := m.store (seg.frontier c ws) (encode (seg.nextEntries ws w))
  keep := fun x => x = seg.frontier c ws + 6 ∨ x = seg.frontier c ws + 7
  safe m' hmix hkeep := record_safe hs h w m' hmix hkeep

/-! ### Ranges -/

/-- The addresses of a store. -/
def Range (a n x : Nat) : Prop := a ≤ x ∧ x < a + n

/-- Bytes outside the range of a store stay. -/
theorem store_of_not_range {m : Mem} {a x : Nat} {bs : List UInt8} (h : ¬Range a bs.length x) :
    m.store a bs x = m x := by
  by_cases hlt : x < a
  · exact Mem.store_of_lt hlt
  · refine Mem.store_of_ge (Nat.le_of_not_lt fun h' => h ⟨Nat.le_of_not_lt hlt, h'⟩)

/-- Bytes in the range of a store are those of the memory the stored bytes were read from. -/
theorem store_of_range {m m' : Mem} {a x : Nat} {bs : List UInt8}
    (hbs : m'.slice a bs.length = bs) (h : Range a bs.length x) : m.store a bs x = m' x := by
  have hslice : (m.store a bs).slice a bs.length = m'.slice a bs.length := by
    rw [Mem.slice_store_self, hbs]
  exact Mem.eq_of_slice_eq hslice x h.1 h.2

namespace Setting

variable (S : Setting τ) [DecidableEq τ]

/-- Stores are under way in chunk `c`; the writer cache is as `R` says. -/
structure Writing (t : τ) (h : List (Event τ)) (c : Nat) (before after : Mem)
    (W : Nat → Prop) (R : WriterCache → Prop) (s : State τ) : Prop where
  hist : s.hist t = h
  last : LastClaim h c
  others : ∀ c' ∈ claims h, c' ≠ c → S.QuietIn t h c' s.mem
  stored : ∀ x, S.lg.segment.InChunk c x → W x → s.mem x = after x
  waiting : ∀ x, S.lg.segment.InChunk c x → ¬W x → s.mem x = before x
  cache : R (s.caches t)

variable {S} {t : τ} {h : List (Event τ)} {c : Nat} {s s' : State τ} {before after : Mem}
  {W W' : Nat → Prop} {R : WriterCache → Prop}

theorem writing_stable : S.Stable t (S.Writing t h c before after W R) := by
  intro s s' henv hP
  have hown : ∀ c' ∈ claims h, ∀ x, S.lg.segment.InChunk c' x → s'.mem x = s.mem x :=
    fun c' hc' => henv.mem c' (by rwa [hP.hist])
  refine ⟨henv.hist.trans hP.hist, hP.last, fun c' hc' hne => ?_, fun x hx hW => ?_,
    fun x hx hW => ?_, ?_⟩
  · exact (hP.others c' hc' hne).congr S.sound (hown c' hc')
  · rw [hown c hP.last.mem x hx]
    exact hP.stored x hx hW
  · rw [hown c hP.last.mem x hx]
    exact hP.waiting x hx hW
  · rw [henv.cache]
    exact hP.cache

theorem Writing.congr (hP : S.Writing t h c before after W R s) (hW : ∀ x, W x ↔ W' x) :
    S.Writing t h c before after W' R s :=
  { hP with
    stored := fun x hx hx' => hP.stored x hx ((hW x).mpr hx')
    waiting := fun x hx hx' => hP.waiting x hx fun h => hx' ((hW x).mp h) }

/-- A byte of the chunk is as before or as after. -/
theorem Writing.mixed (hP : S.Writing t h c before after W R s) {x : Nat}
    (hx : S.lg.segment.InChunk c x) : s.mem x = before x ∨ s.mem x = after x := by
  by_cases hW : W x
  · exact Or.inr (hP.stored x hx hW)
  · exact Or.inl (hP.waiting x hx hW)

/-! ### One store -/

/-- What a store of planned bytes does to `Writing`. -/
theorem Writing.store (hP : S.Writing t h c before after W R s) {a : Nat} {bs : List UInt8}
    (hrange : ∀ x, Range a bs.length x → S.lg.segment.InChunk c x)
    (hbs : after.slice a bs.length = bs) {s' : State τ} (hhist : s'.hist t = s.hist t)
    (hmem : s'.mem = s.mem.store a bs) (hcaches : s'.caches = s.caches) :
    S.Writing t h c before after (fun x => W x ∨ Range a bs.length x) R s' := by
  refine ⟨hhist.trans hP.hist, hP.last, fun c' hc' hne => ?_, fun x hx hW => ?_,
    fun x hx hW => ?_, hcaches ▸ hP.cache⟩
  · refine (hP.others c' hc' hne).congr S.sound fun x hx => ?_
    rw [hmem]
    refine store_of_not_range fun hr => hne ?_
    exact (S.sound.chunkOf_eq hx).symm.trans (S.sound.chunkOf_eq (hrange x hr))
  · rw [hmem]
    by_cases hr : Range a bs.length x
    · exact store_of_range hbs hr
    · rw [store_of_not_range hr]
      exact hP.stored x hx (hW.resolve_right hr)
  · rw [hmem, store_of_not_range fun hr => hW (Or.inr hr)]
    exact hP.waiting x hx fun h => hW (Or.inl h)

/-- A store of planned bytes that publishes nothing. -/
theorem store_meets {op : Op} {a : Nat} {bs : List UInt8}
    (hsem : ∀ s r s', sem S.lg t op s r s' → s' = { s with mem := s.mem.store a bs })
    (plan : Plan S.lg.segment c (S.lg.threadId t) (writtenIn S.lg.segment c h))
    (hW : plan.Allows W) (hrange : plan.Allows (Range a bs.length))
    (hbs : plan.after.slice a bs.length = bs) :
    S.Meets t (S.Writing t h c plan.before plan.after W R) (Prog.perform op) fun _ =>
      S.Writing t h c plan.before plan.after (fun x => W x ∨ Range a bs.length x) R := by
  refine Spec.Triple.op writing_stable fun s r s' hinv hP hstep => ?_
  obtain rfl := hsem s r s' hstep
  have hwriting : S.Writing t h c plan.before plan.after
      (fun x => W x ∨ Range a bs.length x) R { s with mem := s.mem.store a bs } :=
    hP.store (fun x hx => (hrange x hx).1) hbs rfl rfl rfl
  have hmem : c ∈ claims (s.hist t) := by
    rw [hP.hist]
    exact hP.last.mem
  refine ⟨hinv.of_store hmem (fun x hx => ?_) ?_, guar_of hinv.layout (fun _ _ => rfl)
    ⟨[], (List.append_nil _).symm, fun e he => by cases he⟩ (fun x hx => ?_) (fun _ => id),
    hwriting⟩
  · exact store_of_not_range fun hr => hx (hrange x hr).1
  · -- whatever has been stored so far, the chunk is consistent
    show Consistent S.lg.segment c (S.lg.threadId t)
      (writtenIn S.lg.segment c (s.hist t)) (s.mem.store a bs)
    rw [hP.hist]
    refine plan.safe _ (fun x hx => hwriting.mixed hx) fun x hx hkeep => ?_
    exact hwriting.waiting x hx fun hin => (hW.or hrange x hin).2 hkeep
  · exact store_of_not_range fun hr => hx c hmem (hrange x hr).1

/-! ### Copies -/

theorem storeByte_meets {a : Nat} {b : UInt8}
    (plan : Plan S.lg.segment c (S.lg.threadId t) (writtenIn S.lg.segment c h))
    (hW : plan.Allows W) (hrange : plan.Allows (Range a 1))
    (hbs : plan.after.slice a 1 = [b]) :
    S.Meets t (S.Writing t h c plan.before plan.after W R) (storeByte a b) fun _ =>
      S.Writing t h c plan.before plan.after (fun x => W x ∨ Range a 1 x) R := by
  have hsem : ∀ s r s', sem S.lg t (Op.storeByte a b) s r s' →
      s' = { s with mem := s.mem.store a [b] } := fun _ _ _ hstep => hstep
  exact store_meets hsem plan hW hrange hbs

/-- The bytes of a copy that are left, in whatever order. -/
theorem storeBytes_meets {a : Nat} {bs : List UInt8}
    (plan : Plan S.lg.segment c (S.lg.threadId t) (writtenIn S.lg.segment c h))
    (hrange : plan.Allows (Range a bs.length)) (hbs : plan.after.slice a bs.length = bs)
    {order : List Nat} (horder : ∀ i ∈ order, i < bs.length) (hW : plan.Allows W) :
    S.Meets t (S.Writing t h c plan.before plan.after W R) (storeBytes a bs order) fun _ =>
      S.Writing t h c plan.before plan.after (fun x => W x ∨ ∃ i ∈ order, x = a + i) R := by
  induction order generalizing W with
  | nil =>
    refine Spec.Triple.pure fun s _ hP => hP.congr fun x => ?_
    simp
  | cons i rest ih =>
    have hi := horder i List.mem_cons_self
    have hone : plan.Allows (Range (a + i) 1) := fun x hx =>
      hrange x ⟨le_trans (Nat.le_add_right a i) hx.1, by have := hx.2; omega⟩
    have hbyte : plan.after.slice (a + i) 1 = [bs.getD i 0] := by
      have hget := Mem.slice_getElem? plan.after a bs.length i hi
      rw [hbs] at hget
      rw [List.getD_eq_getElem?_getD, hget]
      rfl
    refine Spec.Triple.bind (storeByte_meets plan hW hone hbyte) fun _ => ?_
    refine Spec.Triple.conseq
      (ih (fun j hj => horder j (List.mem_cons_of_mem _ hj)) (hW.or hone)) (fun _ _ hP => hP)
      fun _ s _ hP => hP.congr fun x => ?_
    have hx : Range (a + i) 1 x ↔ x = a + i := by
      unfold Range
      omega
    simp only [hx, List.mem_cons, exists_eq_or_imp, or_assoc]

/-- A copy. -/
theorem copyBytes_meets {a : Nat} {bs : List UInt8}
    (plan : Plan S.lg.segment c (S.lg.threadId t) (writtenIn S.lg.segment c h))
    (hrange : plan.Allows (Range a bs.length)) (hbs : plan.after.slice a bs.length = bs)
    (hW : plan.Allows W) :
    S.Meets t (S.Writing t h c plan.before plan.after W R) (copyBytes a bs) fun _ =>
      S.Writing t h c plan.before plan.after (fun x => W x ∨ Range a bs.length x) R := by
  refine Spec.Triple.bind (copyOrder_meets writing_stable _) fun order => ?_
  refine Spec.Triple.of_pure fun hperm => ?_
  have hmem : ∀ i, i ∈ order ↔ i < bs.length := fun i => by rw [hperm.mem_iff, List.mem_range]
  refine Spec.Triple.conseq (storeBytes_meets plan hrange hbs (fun i hi => (hmem i).mp hi) hW)
    (fun _ _ hP => hP) fun _ s _ hP => hP.congr fun x => or_congr_right ?_
  constructor
  · rintro ⟨i, hi, rfl⟩
    exact ⟨Nat.le_add_right _ _, Nat.add_lt_add_left ((hmem i).mp hi) a⟩
  · intro hx
    exact ⟨x - a, (hmem _).mpr (by have := hx.2; have := hx.1; omega),
      (Nat.add_sub_of_le hx.1).symm⟩

/-! ### Claims -/

omit [DecidableEq τ] in
/-- What a claim can do. -/
theorem claimChunkIndex_cases {lg : Logger τ} {index : Nat}
    (h : (index, s') = claimChunkIndex lg t s) :
    (s.cursor < lg.segment.chunkCount ∧ index = s.cursor ∧ s' = { s with
        cursor := s.cursor + 1
        trace := s.trace ++ [.claimed t s.cursor] }) ∨
    (lg.segment.chunkCount ≤ s.cursor ∧ index = lg.segment.chunkCount ∧
      (s' = s ∨ s' = { s with cursor := s.cursor + 1 })) := by
  unfold claimChunkIndex at h
  split at h
  · obtain ⟨hindex, hs'⟩ := Prod.mk.inj h
    exact Or.inl ⟨‹_›, hindex, hs'⟩
  · split at h
    · obtain ⟨hindex, hs'⟩ := Prod.mk.inj h
      exact Or.inr ⟨Nat.le_of_not_lt ‹_›, hindex, Or.inl hs'⟩
    · obtain ⟨hindex, hs'⟩ := Prod.mk.inj h
      exact Or.inr ⟨Nat.le_of_not_lt ‹_›, hindex, Or.inr hs'⟩

/-- The claim of a chunk: a new chunk of zeros, or none. -/
theorem claimIndex_meets :
    S.Meets t (S.Idle t h) claimIndex fun index s =>
      ((index < S.lg.segment.chunkCount ∧
          writtenIn S.lg.segment index (h ++ [.claimed t index]) = []) ∧
        S.Writing t (h ++ [.claimed t index]) index
          (fun _ => 0) (fun _ => 0) (fun _ => False) (fun _ => True) s) ∨
      (S.lg.segment.chunkCount ≤ index ∧ S.Idle t h s) := by
  refine Spec.Triple.op idle_stable fun s index s' hinv hP hsem => ?_
  rcases claimChunkIndex_cases (show (index, s') = claimChunkIndex S.lg t s from hsem) with
    ⟨hroom, rfl, rfl⟩ | ⟨hfull, rfl, rfl | rfl⟩
  · have hlt : ∀ c' ∈ claims h, c' < s.cursor := by
      intro c' hc'
      have hclaimed := (hinv.layout.claimed c').mp ⟨t, hP.hist ▸ hc'⟩
      exact lt_of_lt_of_le hclaimed (Nat.min_le_left _ _)
    have hclaims : ∀ c', c' ∈ claims (h ++ [.claimed t s.cursor]) ↔
        c' ∈ claims h ∨ c' = s.cursor := by
      intro c'
      unfold claims
      rw [filterMap_concat, List.mem_append]
      exact or_congr_right List.mem_singleton
    have hwritten : ∀ c', writtenIn S.lg.segment c' (h ++ [.claimed t s.cursor]) =
        writtenIn S.lg.segment c' h := by
      intro c'
      unfold writtenIn
      rw [filterMap_concat]
      exact List.append_nil _
    refine ⟨hinv.of_claim hroom t, guar_of hinv.layout (fun _ _ => rfl) ⟨_, rfl, fun e he => ?_⟩
      (fun _ _ => rfl) (fun _ => id), Or.inl ⟨⟨hroom, ?_⟩, ?_, ⟨?_, ?_⟩, ?_, ?_, ?_, trivial⟩⟩
    · rw [List.mem_singleton.mp he]
      rfl
    · rw [hwritten]
      refine writtenIn_eq_nil fun hc => Nat.lt_irrefl _ (hlt s.cursor ?_)
      rw [← hP.hist] at hc ⊢
      exact hinv.layout.placed t _ hc
    · rw [← hP.hist]
      exact State.hist_concat_self rfl rfl
    · exact (hclaims _).mpr (Or.inr rfl)
    · intro c' hc'
      rcases (hclaims c').mp hc' with hold | rfl
      · exact Nat.le_of_lt (hlt c' hold)
      · exact Nat.le_refl _
    · intro c' hc' hne
      unfold QuietIn
      rw [hwritten]
      exact hP.quiet c' (((hclaims c').mp hc').resolve_right hne)
    · intro x _ hfalse
      exact hfalse.elim
    · -- behind the claimed chunks the memory is zero
      intro x hx _
      have hcount : s.claimedChunks S.lg.segment = s.cursor :=
        Nat.min_eq_left (Nat.le_of_lt hroom)
      refine hinv.layout.unclaimed x ?_ (lt_of_lt_of_le hx.2 (S.sound.chunk_inside hroom))
      rw [hcount]
      exact hx.1
  · exact ⟨hinv, fun t' _ => S.spec.env_refl t' s', Or.inr ⟨Nat.le_refl _, hP⟩⟩
  · refine ⟨hinv.of_refused hfull, guar_of hinv.layout (fun _ _ => rfl)
      ⟨[], (List.append_nil _).symm, fun e he => by cases he⟩ (fun _ _ => rfl) (fun _ => id),
      Or.inr ⟨Nat.le_refl _, ⟨hP.hist, hP.quiet⟩, hP.cache⟩⟩

end Setting

end Sub0Log.Producer
