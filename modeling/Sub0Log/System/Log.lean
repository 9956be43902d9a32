import Sub0Log.System.Decode
import Sub0Log.System.Launch

/-!
# The log a state holds

What the threads have published by some moment, in the order a reader meets it: chunk after
chunk, in each chunk the publications of its owner (`log`). A trace has the same
publications in the order they were made; one thread claims its chunks in increasing order
and fills one before the next, so for one thread the two orders agree (`log_thread`).

`visit_log` says that a visit of the memory yields exactly the log, **`decode_log`** that a
decoder returns exactly its Messages. Both hold at every moment of a run.
-/

open Bytes Interleaving

namespace Sub0Log.System

open Wire Reader Producer

variable {τ : Type}

/-! ### The publications of one chunk -/

/-- The publications of a chunk from an address and a reservation on. -/
def shownFrom (seg : Segment) (c : Nat) (owner : UInt64) : (address sequence : Nat) →
    List Written → List Shown
  | _, _, [] => []
  | a, n, w :: ws =>
    ⟨c, owner, a, UInt16.ofNat n, w⟩ ::
      shownFrom seg c owner (a + sizes (w.entries seg.capacity (UInt16.ofNat n)))
        (n + (w.entries seg.capacity (UInt16.ofNat n)).length) ws

/-- The publications of a chunk that holds `ws`. -/
def shownIn (seg : Segment) (c : Nat) (owner : UInt64) (ws : List Written) : List Shown :=
  shownFrom seg c owner (seg.bodyBase c) 0 ws

theorem place_append (a : Nat) (es es' : List Entry) :
    place a (es ++ es') = place a es ++ place (a + sizes es) es' := by
  induction es generalizing a with
  | nil => rfl
  | cons e es ih =>
    rw [List.cons_append, place, place, ih, sizes_cons, Nat.add_assoc, List.cons_append]

variable {seg : Segment} {c : Nat} {owner : UInt64} {ws : List Written}

theorem flatMap_shownFrom (a n : Nat) :
    (shownFrom seg c owner a n ws).flatMap (Shown.views seg.capacity) =
      (place a (layout seg.capacity n ws)).map (entryView (UInt32.ofNat c) owner) := by
  induction ws generalizing a n with
  | nil => rfl
  | cons w ws ih =>
    rw [shownFrom, List.flatMap_cons, ih, layout, place_append, List.map_append]
    rfl

/-- The records of a chunk are those of its publications. -/
theorem chunkViews_eq :
    chunkViews seg c owner ws =
      (shownIn seg c owner ws).flatMap (Shown.views seg.capacity) :=
  (flatMap_shownFrom _ _).symm

theorem map_written_shownFrom (a n : Nat) :
    (shownFrom seg c owner a n ws).map Shown.written = ws := by
  induction ws generalizing a n with
  | nil => rfl
  | cons w ws ih => rw [shownFrom, List.map_cons, ih]

theorem map_written_shownIn : (shownIn seg c owner ws).map Shown.written = ws :=
  map_written_shownFrom _ _

theorem mem_shownFrom {a n : Nat} {p : Shown} (h : p ∈ shownFrom seg c owner a n ws) :
    p.chunk = c ∧ p.owner = owner ∧ a ≤ p.address ∧
      p.address + sizes (p.entries seg.capacity) ≤ a + sizes (layout seg.capacity n ws) ∧
      ∀ e ∈ p.entries seg.capacity, e ∈ layout seg.capacity n ws := by
  induction ws generalizing a n with
  | nil => cases h
  | cons w ws ih =>
    rw [layout, sizes_append]
    rcases List.mem_cons.mp h with rfl | htail
    · refine ⟨rfl, rfl, Nat.le_refl _, ?_, fun e he => List.mem_append_left _ he⟩
      exact Nat.add_le_add_left (Nat.le_add_right _ _) _
    · obtain ⟨hchunk, howner, hle, hend, hmem⟩ := ih htail
      exact ⟨hchunk, howner, le_trans (Nat.le_add_right _ _) hle, by rwa [Nat.add_assoc] at hend,
        fun e he => List.mem_append_right _ (hmem e he)⟩

/-- Every publication has a record. -/
theorem entries_pos (capacity : Nat) (sequence : UInt16) (w : Written) :
    8 ≤ sizes (w.entries capacity sequence) := by
  cases w with
  | message e => exact le_trans (Entry.size_pos _) (Nat.le_add_right _ _)
  | definition d => exact le_trans (Entry.size_pos _) (Nat.le_add_right _ _)
  | subsystem id name => exact le_trans (Entry.size_pos _) (Nat.le_add_right _ _)

/-- The publications of a chunk lie one behind the other. -/
theorem shownFrom_pairwise (a n : Nat) :
    (shownFrom seg c owner a n ws).Pairwise fun p q => p.address < q.address := by
  induction ws generalizing a n with
  | nil => exact List.Pairwise.nil
  | cons w ws ih =>
    rw [shownFrom]
    refine List.pairwise_cons.mpr ⟨fun q hq => ?_, ih _ _⟩
    obtain ⟨-, -, hle, -⟩ := mem_shownFrom hq
    have hpos := entries_pos seg.capacity (UInt16.ofNat n) w
    show a < q.address
    omega

/-! ### The log -/

section Log

variable [DecidableEq τ] (lg : Logger τ) (s : State τ)

/-- The thread an event says claimed chunk `c`. -/
def claimer? (c : Nat) : Event τ → Option τ
  | .claimed t c' => if c' = c then some t else none
  | .committed _ _ _ | .dropped _ _ | .truncated _ => none

/-- The thread that claimed chunk `c`. -/
def ownerOf (c : Nat) : Option τ := s.trace.findSome? (claimer? c)

/-- What thread `t` published in chunk `c`. -/
def chunkLogOf (c : Nat) (t : τ) : List (τ × Shown) :=
  (shownIn lg.segment c (lg.threadId t) (writtenIn lg.segment c (s.hist t))).map (Prod.mk t)

/-- What is published in chunk `c`, with the thread that published it. -/
def chunkLog (c : Nat) : List (τ × Shown) :=
  match ownerOf s c with
  | none => []
  | some t => chunkLogOf lg s c t

/-- What is published, in the order a reader meets it. -/
def log : List (τ × Shown) :=
  (List.range (s.claimedChunks lg.segment)).flatMap (chunkLog lg s)

/-- The publication of an event. -/
def published? : Event τ → Option Written
  | .committed _ _ w => some w
  | .claimed _ _ | .dropped _ _ | .truncated _ => none

end Log

/-- The publications of a history with the chunks they went to. -/
def commits (seg : Segment) (h : List (Event τ)) : List (Nat × Written) :=
  h.filterMap fun e => (published? e).bind fun w => (e.commitChunk? seg).map fun c => (c, w)

theorem commits_fst (seg : Segment) (h : List (Event τ)) :
    (commits seg h).map Prod.fst = commitChunks seg h := by
  unfold commits commitChunks
  rw [List.map_filterMap]
  refine congrArg (fun f => h.filterMap f) (funext fun e => ?_)
  cases e <;> rfl

theorem commits_snd (seg : Segment) (h : List (Event τ)) :
    (commits seg h).map Prod.snd = h.filterMap published? := by
  unfold commits
  rw [List.map_filterMap]
  refine congrArg (fun f => h.filterMap f) (funext fun e => ?_)
  cases e <;> rfl

/-- The publications into one chunk are one group of them. -/
theorem writtenIn_commits (seg : Segment) (c : Nat) (h : List (Event τ)) :
    writtenIn seg c h = ((commits seg h).filter fun x => x.1 = c).map Prod.snd := by
  unfold writtenIn commits
  rw [List.filter_filterMap, List.map_filterMap]
  refine congrArg (fun f => h.filterMap f) (funext fun e => ?_)
  cases e with
  | committed t a w =>
    show (if seg.chunkOf a = c then some w else none) = _
    by_cases hc : seg.chunkOf a = c
    · simp [published?, Event.commitChunk?, hc]
    · simp [published?, Event.commitChunk?, hc]
  | claimed | dropped | truncated => rfl

/-! ### Lists in the order of a key -/

/-- A list sorted by a key is its groups, key after key. -/
theorem flatMap_filter_key {α : Type} (f : α → Nat) {l : List α}
    (hsorted : (l.map f).Pairwise (· ≤ ·)) {k : Nat} (hlt : ∀ a ∈ l, f a < k) :
    (List.range k).flatMap (fun c => l.filter fun a => f a = c) = l := by
  induction k generalizing l with
  | zero =>
    cases l with
    | nil => rfl
    | cons a l => exact absurd (hlt a List.mem_cons_self) (Nat.not_lt_zero _)
  | succ k ih =>
    -- the last group is at the end
    have hsplit : l.filter (fun a => f a < k) ++ l.filter (fun a => f a = k) = l := by
      clear ih
      induction l with
      | nil => rfl
      | cons a l ihl =>
        rw [List.map_cons, List.pairwise_cons] at hsorted
        have hl := ihl hsorted.2 fun b hb => hlt b (List.mem_cons_of_mem _ hb)
        by_cases ha : f a < k
        · rw [List.filter_cons_of_pos (by simpa using ha),
            List.filter_cons_of_neg (by simpa using Nat.ne_of_lt ha), List.cons_append, hl]
        · have hak : f a = k := by
            have := hlt a List.mem_cons_self
            omega
          have hlow : l.filter (fun b => f b < k) = [] := by
            refine List.filter_eq_nil_iff.mpr fun b hb => ?_
            have hle := hsorted.1 (f b) (List.mem_map_of_mem hb)
            simpa using hak ▸ hle
          rw [hlow, List.nil_append] at hl
          rw [List.filter_cons_of_neg (by simpa using ha), hlow, List.nil_append,
            List.filter_cons_of_pos (by simpa using hak), hl]
    have hlow := ih (l := l.filter fun a => f a < k)
      (hsorted.sublist (List.filter_sublist.map f)) (fun a ha => by
        simpa using (List.mem_filter.mp ha).2)
    have hgroups : (List.range k).flatMap (fun c => (l.filter fun a => f a < k).filter
        fun a => f a = c) = (List.range k).flatMap fun c => l.filter fun a => f a = c := by
      refine List.flatMap_congr fun c hc => ?_
      rw [List.filter_filter]
      refine List.filter_congr fun a _ => ?_
      have hck := List.mem_range.mp hc
      by_cases hac : f a = c
      · simp [hac, hck]
      · simp [hac]
    rw [List.range_succ, List.flatMap_append, ← hgroups, hlow, List.flatMap_cons,
      List.flatMap_nil, List.append_nil, hsplit]

/-! ### The visit of a state -/

section States

variable [DecidableEq τ] {S : Setting τ} {s : State τ}

/-- A chunk that was claimed has an owner. -/
theorem ownerOf_claimed (h : S.Layout s) {c : Nat} (hc : c < s.claimedChunks S.lg.segment) :
    ∃ t, ownerOf s c = some t ∧ c ∈ claims (s.hist t) := by
  obtain ⟨t, ht⟩ := (h.claimed c).mpr hc
  obtain ⟨e, he, hclaim⟩ := List.mem_filterMap.mp ht
  have hmem := (State.mem_hist.mp he).1
  have hsome : (ownerOf s c).isSome = true := by
    refine List.findSome?_isSome_iff.mpr ⟨e, hmem, ?_⟩
    cases e with
    | claimed t' c' =>
      obtain rfl : c' = c := Option.some.inj hclaim
      simp [claimer?]
    | committed | dropped | truncated => cases hclaim
  obtain ⟨t', ht'⟩ := Option.isSome_iff_exists.mp hsome
  refine ⟨t', ht', ?_⟩
  obtain ⟨e', he', hclaim'⟩ := List.exists_of_findSome?_eq_some ht'
  cases e' with
  | claimed t'' c' =>
    change (if c' = c then some t'' else none) = some t' at hclaim'
    split at hclaim'
    · rename_i heq
      obtain rfl := Option.some.inj hclaim'
      exact List.mem_filterMap.mpr ⟨_, State.mem_hist.mpr ⟨he', rfl⟩, congrArg some heq⟩
    · cases hclaim'
  | committed | dropped | truncated => cases hclaim'

theorem chunkLog_of_claims (h : S.Layout s) {c : Nat} {t : τ} (hc : c ∈ claims (s.hist t)) :
    chunkLog S.lg s c = chunkLogOf S.lg s c t := by
  obtain ⟨t', howner, ht'⟩ := ownerOf_claimed h ((h.claimed c).mp ⟨t, hc⟩)
  obtain rfl := h.exclusive t t' c hc ht'
  unfold chunkLog
  rw [howner]

omit [DecidableEq τ] in
/-- The mapped bytes differ from the memory in the claim cursor only. -/
theorem mapped_of_ge (S : Setting τ) {x : Nat} (h : S.lg.segment.headerBytes ≤ x) :
    s.mapped x = s.mem x := by
  have hcursor := S.sound.cursor_inside
  unfold cCompactSegmentHeaderBytes at hcursor
  exact Mem.store_of_ge (by rw [leBytes_length]; omega)

omit [DecidableEq τ] in
theorem mapped_of_lt {x : Nat} (h : x < sizeofSegmentHeader) : s.mapped x = s.mem x := by
  unfold sizeofSegmentHeader at h
  exact Mem.store_of_lt (by unfold cNextChunkOffset; omega)

omit [DecidableEq τ] in
theorem mapped_inChunk (S : Setting τ) {c x : Nat} (h : S.lg.segment.InChunk c x) :
    s.mapped x = s.mem x :=
  mapped_of_ge S (le_trans (Nat.le_add_right _ _) h.1)

/-- The header in front of the mapped bytes. -/
theorem mapped_headed (h : S.Layout s) : S.lg.segment.Headed S.header s.mapped :=
  h.headed.congr fun _ hx => mapped_of_lt hx

omit [DecidableEq τ] in
theorem claimedChunks_le (s : State τ) (seg : Segment) :
    s.claimedChunks seg ≤ seg.chunkCount := Nat.min_le_right _ _

/-- At every moment a chunk shows what its owner published in it. -/
theorem mapped_consistent (h : S.Layout s) {c : Nat} {t : τ} (hc : c ∈ claims (s.hist t)) :
    Consistent S.lg.segment c (S.lg.threadId t) (writtenIn S.lg.segment c (s.hist t)) s.mapped :=
  (h.shows t c hc).congr S.sound fun _ hx => mapped_inChunk S hx

/-- **A visit yields the log.** -/
theorem visit_log (h : S.Layout s) :
    ∃ r v, openImage (image S.lg.segment s.mapped) = .ok r ∧ r.header = S.header ∧
      visit r = .ok v ∧
      v.records = ((log S.lg s).map Prod.snd).flatMap (Shown.views S.lg.segment.capacity) := by
  have hheaded := mapped_headed h
  have hzero : ∀ x, S.lg.segment.chunkBase (s.claimedChunks S.lg.segment) ≤ x →
      x < S.lg.segment.segmentBytes → s.mapped x = 0 := fun x h₁ h₂ => by
    rw [mapped_of_ge S (le_trans (Nat.le_add_right _ _) h₁)]
    exact h.unclaimed x h₁ h₂
  have hclass : ∀ i, i < s.claimedChunks S.lg.segment →
      s.mapped (S.lg.segment.chunkBase i + 28) = 0 ∨
        s.mapped (S.lg.segment.chunkBase i + 28) = S.lg.segment.sizeClass := by
    intro i hi
    obtain ⟨t, -, ht⟩ := ownerOf_claimed h hi
    exact class_of_consistent (mapped_consistent h ht)
  obtain ⟨v, hvisit, hrecords⟩ := visit_records S.sound hheaded
    (claimedChunks_le s S.lg.segment) hclass hzero
  refine ⟨_, v, openImage_image S.sound hheaded, rfl, hvisit, ?_⟩
  rw [hrecords]
  unfold log
  rw [List.map_flatMap, List.flatMap_assoc]
  refine List.flatMap_congr fun i hi => ?_
  obtain ⟨t, -, ht⟩ := ownerOf_claimed h (List.mem_range.mp hi)
  have hlt : i < S.lg.segment.chunkCount :=
    lt_of_lt_of_le (List.mem_range.mp hi) (claimedChunks_le s S.lg.segment)
  rw [slotWalk_consistent S.sound hlt (mapped_consistent h ht), chunkViews_eq,
    chunkLog_of_claims h ht, chunkLogOf, List.map_map]
  exact congrArg _ (List.map_id _).symm

/-! ### What is in the log -/

theorem mem_log (h : S.Layout s) {t : τ} {p : Shown} :
    (t, p) ∈ log S.lg s ↔ p.chunk ∈ claims (s.hist t) ∧
      p ∈ shownIn S.lg.segment p.chunk (S.lg.threadId t)
        (writtenIn S.lg.segment p.chunk (s.hist t)) := by
  unfold log
  rw [List.mem_flatMap]
  constructor
  · rintro ⟨c, hc, hmem⟩
    obtain ⟨t', -, ht'⟩ := ownerOf_claimed h (List.mem_range.mp hc)
    rw [chunkLog_of_claims h ht'] at hmem
    obtain ⟨q, hq, heq⟩ := List.mem_map.mp hmem
    obtain ⟨rfl, rfl⟩ := Prod.mk.inj heq
    obtain ⟨rfl, -⟩ := mem_shownFrom hq
    exact ⟨ht', hq⟩
  · rintro ⟨hc, hmem⟩
    refine ⟨p.chunk, List.mem_range.mpr ((h.claimed _).mp ⟨t, hc⟩), ?_⟩
    rw [chunkLog_of_claims h hc]
    exact List.mem_map_of_mem hmem

/-- What is in the log was published. -/
theorem committed_of_log (h : S.Layout s) {t : τ} {p : Shown} (hp : (t, p) ∈ log S.lg s) :
    ∃ a, Event.committed t a p.written ∈ s.trace := by
  obtain ⟨-, hmem⟩ := (mem_log h).mp hp
  have hwritten := List.mem_map_of_mem (f := Shown.written) hmem
  rw [map_written_shownIn] at hwritten
  obtain ⟨e, he, hin⟩ := List.mem_filterMap.mp hwritten
  obtain ⟨htrace, hthread⟩ := State.mem_hist.mp he
  cases e with
  | committed t' a w =>
    change (if S.lg.segment.chunkOf a = p.chunk then some w else none) = some p.written at hin
    split at hin
    · obtain rfl := Option.some.inj hin
      obtain rfl : t' = t := hthread
      exact ⟨a, htrace⟩
    · cases hin
  | claimed | dropped | truncated => cases hin

/-- What was published is in the log. -/
theorem log_of_committed (h : S.Layout s) {t : τ} {a : Nat} {w : Written}
    (hw : Event.committed t a w ∈ s.trace) : ∃ p, (t, p) ∈ log S.lg s ∧ p.written = w := by
  have hhist : Event.committed t a w ∈ s.hist t := State.mem_hist.mpr ⟨hw, rfl⟩
  have hclaim : S.lg.segment.chunkOf a ∈ claims (s.hist t) :=
    h.placed t _ (List.mem_filterMap.mpr ⟨_, hhist, rfl⟩)
  have hwritten : w ∈ writtenIn S.lg.segment (S.lg.segment.chunkOf a) (s.hist t) :=
    List.mem_filterMap.mpr ⟨_, hhist, if_pos rfl⟩
  have hmap : (shownIn S.lg.segment (S.lg.segment.chunkOf a) (S.lg.threadId t)
      (writtenIn S.lg.segment (S.lg.segment.chunkOf a) (s.hist t))).map Shown.written =
      writtenIn S.lg.segment (S.lg.segment.chunkOf a) (s.hist t) := map_written_shownIn
  rw [← hmap] at hwritten
  obtain ⟨p, hp, rfl⟩ := List.mem_map.mp hwritten
  obtain ⟨hchunk, -⟩ := mem_shownFrom hp
  exact ⟨p, (mem_log h).mpr ⟨hchunk ▸ hclaim, hchunk ▸ hp⟩, rfl⟩

/-- The owner of a chunk is the only thread in it. -/
theorem log_owner (h : S.Layout s) {t : τ} {p : Shown} (hp : (t, p) ∈ log S.lg s) :
    p.owner = S.lg.threadId t := (mem_shownFrom ((mem_log h).mp hp).2).2.1

/-- **For one thread the log has the order of its trace.** -/
theorem log_thread (h : S.Layout s) (t : τ) :
    ((log S.lg s).filter fun x => x.1 = t).map (fun x => x.2.written) =
      (s.hist t).filterMap published? := by
  -- chunk by chunk, what the thread published in it
  have hchunk : ∀ c ∈ List.range (s.claimedChunks S.lg.segment),
      ((chunkLog S.lg s c).filter fun x => x.1 = t).map (fun x => x.2.written) =
        ((commits S.lg.segment (s.hist t)).filter fun x => x.1 = c).map Prod.snd := by
    intro c hc
    rw [← writtenIn_commits]
    obtain ⟨t', -, ht'⟩ := ownerOf_claimed h (List.mem_range.mp hc)
    rw [chunkLog_of_claims h ht', chunkLogOf]
    by_cases heq : t' = t
    · subst heq
      rw [List.filter_eq_self.mpr fun x hx => ?_, List.map_map]
      · exact map_written_shownIn
      · obtain ⟨p, -, rfl⟩ := List.mem_map.mp hx
        exact decide_eq_true rfl
    · have hnone : writtenIn S.lg.segment c (s.hist t) = [] :=
        Setting.writtenIn_eq_nil fun hcommit => heq (h.exclusive t' t c ht' (h.placed t c hcommit))
      rw [hnone, List.filter_eq_nil_iff.mpr fun x hx => ?_, List.map_nil]
      obtain ⟨p, -, rfl⟩ := List.mem_map.mp hx
      simpa using heq
  have hlt : ∀ x ∈ commits S.lg.segment (s.hist t), x.1 < s.claimedChunks S.lg.segment := by
    intro x hx
    have hmem : x.1 ∈ commitChunks S.lg.segment (s.hist t) := by
      rw [← commits_fst]
      exact List.mem_map_of_mem hx
    exact (h.claimed x.1).mp ⟨t, h.placed t _ hmem⟩
  have hsorted : ((commits S.lg.segment (s.hist t)).map Prod.fst).Pairwise (· ≤ ·) := by
    rw [commits_fst]
    exact h.ordered t
  unfold log
  rw [List.filter_flatMap, List.map_flatMap, List.flatMap_congr hchunk, ← List.map_flatMap,
    flatMap_filter_key Prod.fst hsorted hlt, commits_snd]

/-- The log goes up through the segment. -/
theorem log_pairwise (h : S.Layout s) :
    (log S.lg s).Pairwise fun x y => x.2.address < y.2.address := by
  have hin : ∀ c < s.claimedChunks S.lg.segment, ∀ x ∈ chunkLog S.lg s c,
      S.lg.segment.chunkBase c ≤ x.2.address ∧
        x.2.address < S.lg.segment.chunkBase c + S.lg.segment.chunkBytes := by
    intro c hc x hx
    obtain ⟨t, -, ht⟩ := ownerOf_claimed h hc
    rw [chunkLog_of_claims h ht] at hx
    obtain ⟨p, hp, rfl⟩ := List.mem_map.mp hx
    obtain ⟨-, -, hle, hend, -⟩ := mem_shownFrom hp
    have hfits := (h.shows t c ht).fits
    have hbody := S.sound.bodyBase_add c
    have hpos := entries_pos S.lg.segment.capacity p.sequence p.written
    change 8 ≤ sizes (p.entries S.lg.segment.capacity) at hpos
    have hhead : S.lg.segment.bodyBase c = S.lg.segment.chunkBase c + sizeofChunkHeader := rfl
    have hsize : sizes (layout S.lg.segment.capacity 0
      (writtenIn S.lg.segment c (s.hist t))) ≤ S.lg.segment.capacity := hfits
    exact ⟨by show _ ≤ p.address; omega, by show p.address < _; omega⟩
  unfold log
  rw [List.pairwise_flatMap]
  refine ⟨fun c hc => ?_, ?_⟩
  · obtain ⟨t, -, ht⟩ := ownerOf_claimed h (List.mem_range.mp hc)
    rw [chunkLog_of_claims h ht]
    exact List.pairwise_map.mpr (shownFrom_pairwise _ _)
  · refine List.pairwise_lt_range.imp_of_mem fun {c c'} hc hc' hlt x hx y hy => ?_
    have hx' := (hin c (List.mem_range.mp hc) x hx).2
    have hy' := (hin c' (List.mem_range.mp hc') y hy).1
    have hbase := S.lg.segment.chunkBase_add_le hlt
    omega

end States

end Sub0Log.System
