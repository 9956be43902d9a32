import Sub0Log.Producer.Record
import Sub0Log.Producer.Segment

/-!
# The memory of one chunk

A chunk holds a list of records (`Holds`). The records are those of a list of publications,
and two predicates say how far its memory shows them.

* `Quiet` — no write is under way: the stamped header, the encoded records, zeros behind
  them. This is what the owner of a chunk knows between two of its calls.
* `Consistent` — what holds at any moment, also while the owner stamps the header or
  writes behind the last record: the published records are there, and the word behind
  them carries no commit tag. This is what a reader may count on.

A publication starts from a quiet chunk `m` and ends with `m.store (frontier) (encode
new)`, whatever the order of its stores: `store_encode_of_uncovered` says that storing
the head words and the payloads is all there is to do, and `Quiet.extend` that the chunk
is quiet again, one publication longer.
-/

open Bytes

namespace Sub0Log.Producer

open Wire

/-! ### Where the records of a list lie -/

/-- The records of a list with the addresses of their head words. -/
def place (a : Nat) : List Entry → List (Nat × Entry)
  | [] => []
  | e :: es => (a, e) :: place (a + e.size) es

theorem mem_place {a : Nat} {es : List Entry} {p : Nat × Entry} (h : p ∈ place a es) :
    a ≤ p.1 ∧ p.1 + p.2.size ≤ a + sizes es ∧ p.2 ∈ es := by
  induction es generalizing a with
  | nil => cases h
  | cons e es ih =>
    rw [sizes_cons]
    rcases List.mem_cons.mp h with rfl | htail
    · exact ⟨Nat.le_refl _, Nat.add_le_add_left (Nat.le_add_right _ _) _, List.mem_cons_self⟩
    · obtain ⟨h₁, h₂, h₃⟩ := ih htail
      exact ⟨by omega, by omega, List.mem_cons_of_mem _ h₃⟩

/-- A record is read back where it was laid down. -/
theorem slice_store_encode {m : Mem} {a : Nat} {es : List Entry} {p : Nat × Entry}
    (h : p ∈ place a es) : (m.store a (encode es)).slice p.1 p.2.size = p.2.bytes := by
  induction es generalizing m a with
  | nil => cases h
  | cons e es ih =>
    have hsplit : m.store a (encode (e :: es)) =
        (m.store a e.bytes).store (a + e.size) (encode es) := by
      rw [encode_cons, ← Mem.store_store_append, Entry.bytes_length]
    rw [hsplit]
    rcases List.mem_cons.mp h with rfl | htail
    · rw [Mem.slice_store_of_disjoint (Or.inl (Nat.le_refl _)),
        Mem.slice_store_eq e.bytes_length]
    · exact ih htail

theorem slice_store_head {m : Mem} {a : Nat} {es : List Entry} {p : Nat × Entry}
    (h : p ∈ place a es) :
    (m.store a (encode es)).slice p.1 8 = leBytes 8 p.2.head.pack := by
  have hrecord := slice_store_encode (m := m) h
  have hsize : p.2.size = 8 + paddedPayload p.2.payload.length := rfl
  rw [hsize, Mem.slice_add, Entry.bytes] at hrecord
  exact (List.append_inj hrecord (by rw [Mem.slice_length, leBytes_length])).1

theorem slice_store_payload {m : Mem} {a : Nat} {es : List Entry} {p : Nat × Entry}
    (h : p ∈ place a es) :
    (m.store a (encode es)).slice (p.1 + 8) p.2.payload.length = p.2.payload := by
  have hrecord := slice_store_encode (m := m) h
  have hle := le_paddedPayload p.2.payload.length
  have hsize : p.2.size = 8 + (p.2.payload.length +
      (paddedPayload p.2.payload.length - p.2.payload.length)) := by
    unfold Entry.size recordFootprint
    omega
  rw [hsize, Mem.slice_add, Mem.slice_add, Entry.bytes] at hrecord
  have hrest := (List.append_inj hrecord (by rw [Mem.slice_length, leBytes_length])).2
  exact (List.append_inj hrest (by rw [Mem.slice_length])).1

/-- Padding is zero. -/
theorem bytes_padding (e : Entry) {i : Nat} (h : 8 + e.payload.length ≤ i) :
    e.bytes.getD i 0 = 0 := by
  rw [List.getD_eq_getElem?_getD, Entry.bytes, List.getElem?_append_right (by simp; omega),
    List.getElem?_append_right (by simp; omega), List.getElem?_replicate]
  split <;> rfl

/-- Over zeros, a byte that is neither in a head word nor in a payload is what it was. -/
theorem store_encode_of_uncovered {m : Mem} {a : Nat} {es : List Entry} {x : Nat}
    (hzero : ∀ y, a ≤ y → y < a + sizes es → m y = 0)
    (hx : ∀ p ∈ place a es, ¬(p.1 ≤ x ∧ x < p.1 + 8 + p.2.payload.length)) :
    m.store a (encode es) x = m x := by
  induction es generalizing m a with
  | nil => rw [encode_nil, Mem.store_nil]
  | cons e es ih =>
    rw [sizes_cons] at hzero
    have hsplit : m.store a (encode (e :: es)) =
        (m.store a e.bytes).store (a + e.size) (encode es) := by
      rw [encode_cons, ← Mem.store_store_append, Entry.bytes_length]
    have hlater : ∀ y, a + e.size ≤ y → m.store a e.bytes y = m y := fun y hy =>
      Mem.store_of_ge (by rwa [Entry.bytes_length])
    rw [hsplit, ih (fun y h₁ h₂ => by rw [hlater y h₁]; exact hzero y (by omega) (by omega))
      (fun p hp => hx p (List.mem_cons_of_mem _ hp))]
    -- the first record: in front of it, in its padding, or behind it
    by_cases hfront : x < a
    · exact Mem.store_of_lt hfront
    by_cases hbehind : a + e.size ≤ x
    · exact hlater x hbehind
    have hhere := hx (a, e) List.mem_cons_self
    have hget : (e.bytes).getD (x - a) (m x) = 0 := by
      have hlt : x - a < e.bytes.length := by
        rw [Entry.bytes_length]
        omega
      have hpad := bytes_padding e (i := x - a) (by simp only at hhere; omega)
      rw [List.getD_eq_getElem?_getD, List.getElem?_eq_getElem hlt] at hpad ⊢
      exact hpad
    rw [Mem.store, if_pos (by omega), hget, hzero x (by omega) (by omega)]

/-! ### Records and nothing behind them -/

/-- Chunk `c` holds these records: the stamped header, the encoded records, zeros behind
them. -/
structure Holds (seg : Segment) (c : Nat) (owner : UInt64) (es : List Entry) (m : Mem) :
    Prop where
  header : ∃ time, m.slice (seg.chunkBase c) sizeofChunkHeader =
    (seg.chunkHeader owner time).toBytes
  fits : sizes es ≤ seg.capacity
  content : m.slice (seg.bodyBase c) (sizes es) = encode es
  wf : ∀ e ∈ es, e.Wf
  zero : ∀ x, seg.bodyBase c + sizes es ≤ x → x < seg.bodyBase c + seg.capacity → m x = 0

namespace Holds

variable {seg : Segment} {c : Nat} {owner : UInt64} {es new : List Entry} {m m' : Mem}

/-- What a chunk holds is about the bytes of the chunk. -/
theorem congr (h : Holds seg c owner es m) (hs : seg.Sound)
    (hm : ∀ x, seg.InChunk c x → m' x = m x) : Holds seg c owner es m' := by
  have hbody := hs.bodyBase_add c
  have hhead : seg.bodyBase c = seg.chunkBase c + sizeofChunkHeader := rfl
  have hfits := h.fits
  refine ⟨?_, h.fits, ?_, h.wf, ?_⟩
  · obtain ⟨time, htime⟩ := h.header
    refine ⟨time, ?_⟩
    rw [← htime]
    exact Mem.slice_congr fun x h₁ h₂ => hm x ⟨h₁, by omega⟩
  · rw [← h.content]
    exact Mem.slice_congr fun x h₁ h₂ => hm x ⟨by omega, by omega⟩
  · intro x h₁ h₂
    rw [hm x ⟨by omega, by omega⟩]
    exact h.zero x h₁ h₂

/-- A freshly stamped chunk. -/
theorem nil (hs : seg.Sound) {time : UInt64}
    (hheader : m.slice (seg.chunkBase c) sizeofChunkHeader =
      (seg.chunkHeader owner time).toBytes)
    (hzero : ∀ x, seg.bodyBase c ≤ x → x < seg.chunkBase c + seg.chunkBytes → m x = 0) :
    Holds seg c owner [] m := by
  have hbody := hs.bodyBase_add c
  refine ⟨⟨time, hheader⟩, Nat.zero_le _, rfl, (fun e he => by cases he), fun x h₁ h₂ => ?_⟩
  exact hzero x h₁ (by omega)

/-- Records are laid down behind the others. -/
theorem append (h : Holds seg c owner es m) (hs : seg.Sound)
    (hfits : sizes es + sizes new ≤ seg.capacity) (hwf : ∀ e ∈ new, e.Wf) :
    Holds seg c owner (es ++ new) (m.store (seg.bodyBase c + sizes es) (encode new)) := by
  have hbody := hs.bodyBase_add c
  have hhead : seg.bodyBase c = seg.chunkBase c + sizeofChunkHeader := rfl
  refine ⟨?_, by rw [sizes_append]; exact hfits, ?_, ?_, ?_⟩
  · obtain ⟨time, htime⟩ := h.header
    refine ⟨time, ?_⟩
    rw [Mem.slice_store_of_disjoint (Or.inl (by omega)), htime]
  · rw [sizes_append, encode_append, Mem.slice_add,
      Mem.slice_store_of_disjoint (Or.inl (by omega)), h.content]
    have hnew : (m.store (seg.bodyBase c + sizes es) (encode new)).slice
        (seg.bodyBase c + sizes es) (sizes new) = encode new :=
      Mem.slice_store_eq (encode_length _)
    rw [hnew]
  · intro e he
    rcases List.mem_append.mp he with hold | hnew
    · exact h.wf e hold
    · exact hwf e hnew
  · intro x h₁ h₂
    rw [sizes_append] at h₁
    rw [Mem.store_of_ge (by rw [encode_length]; omega)]
    exact h.zero x (by omega) h₂

end Holds

/-! ### The two predicates -/

section Chunks

variable (seg : Segment) (c : Nat) (owner : UInt64) (ws : List Written) (m : Mem)

/-- The records of a chunk with these publications. -/
def Segment.entries : List Entry := layout seg.capacity 0 ws

/-- Where the next record goes. -/
def Segment.frontier : Nat := seg.bodyBase c + sizes (seg.entries ws)

/-- No write is under way in chunk `c`. -/
structure Quiet : Prop where
  header : ∃ time, m.slice (seg.chunkBase c) sizeofChunkHeader =
    (seg.chunkHeader owner time).toBytes
  fits : sizes (seg.entries ws) ≤ seg.capacity
  content : m.slice (seg.bodyBase c) (sizes (seg.entries ws)) = encode (seg.entries ws)
  wf : ∀ e ∈ seg.entries ws, e.Wf
  zero : ∀ x, seg.frontier c ws ≤ x → x < seg.bodyBase c + seg.capacity → m x = 0

/-- What holds of chunk `c` at any moment. -/
structure Consistent : Prop where
  header : ∃ time, (∀ i, i < sizeofChunkHeader → m (seg.chunkBase c + i) = 0 ∨
      m (seg.chunkBase c + i) = (seg.chunkHeader owner time).toBytes.getD i 0) ∧
    (ws ≠ [] → m.slice (seg.chunkBase c) sizeofChunkHeader =
      (seg.chunkHeader owner time).toBytes)
  fits : sizes (seg.entries ws) ≤ seg.capacity
  content : m.slice (seg.bodyBase c) (sizes (seg.entries ws)) = encode (seg.entries ws)
  wf : ∀ e ∈ seg.entries ws, e.Wf
  stop : sizes (seg.entries ws) + 8 ≤ seg.capacity →
    m (seg.frontier c ws + 6) = 0 ∧ m (seg.frontier c ws + 7) = 0

end Chunks

variable {seg : Segment} {c : Nat} {owner : UInt64} {ws : List Written} {m m' : Mem}

/-- A quiet chunk holds the records of its publications. -/
theorem quiet_iff : Quiet seg c owner ws m ↔ Holds seg c owner (seg.entries ws) m :=
  ⟨fun h => ⟨h.header, h.fits, h.content, h.wf, h.zero⟩,
    fun h => ⟨h.header, h.fits, h.content, h.wf, h.zero⟩⟩

theorem Quiet.congr (h : Quiet seg c owner ws m) (hs : seg.Sound)
    (hm : ∀ x, seg.InChunk c x → m' x = m x) : Quiet seg c owner ws m' :=
  quiet_iff.mpr ((quiet_iff.mp h).congr hs hm)

theorem Consistent.congr (h : Consistent seg c owner ws m) (hs : seg.Sound)
    (hm : ∀ x, seg.InChunk c x → m' x = m x) : Consistent seg c owner ws m' := by
  have hbody := hs.bodyBase_add c
  have hhead : seg.bodyBase c = seg.chunkBase c + sizeofChunkHeader := rfl
  have hfits := h.fits
  refine ⟨?_, h.fits, ?_, h.wf, ?_⟩
  · obtain ⟨time, hbytes, hstamped⟩ := h.header
    refine ⟨time, fun i hi => ?_, fun hne => ?_⟩
    · rw [hm _ ⟨by omega, by omega⟩]
      exact hbytes i hi
    · rw [← hstamped hne]
      exact Mem.slice_congr fun x h₁ h₂ => hm x ⟨h₁, by omega⟩
  · rw [← h.content]
    exact Mem.slice_congr fun x h₁ h₂ => hm x ⟨by omega, by omega⟩
  · intro hroom
    unfold Segment.frontier
    rw [hm _ ⟨by omega, by omega⟩, hm _ ⟨by omega, by omega⟩]
    exact h.stop hroom

/-- While the owner writes behind the last record and leaves the tag there alone, the
chunk stays consistent. -/
theorem Quiet.consistent (h : Quiet seg c owner ws m) (hs : seg.Sound)
    (hm : ∀ x, seg.InChunk c x → x < seg.frontier c ws → m' x = m x)
    (hstop : sizes (seg.entries ws) + 8 ≤ seg.capacity →
      m' (seg.frontier c ws + 6) = 0 ∧ m' (seg.frontier c ws + 7) = 0) :
    Consistent seg c owner ws m' := by
  have hbody := hs.bodyBase_add c
  have hhead : seg.bodyBase c = seg.chunkBase c + sizeofChunkHeader := rfl
  have hfits := h.fits
  have hfront : seg.frontier c ws = seg.bodyBase c + sizes (seg.entries ws) := rfl
  obtain ⟨time, htime⟩ := h.header
  have hstamped : m'.slice (seg.chunkBase c) sizeofChunkHeader =
      (seg.chunkHeader owner time).toBytes := by
    rw [← htime]
    exact Mem.slice_congr fun x h₁ h₂ => hm x ⟨h₁, by omega⟩ (by omega)
  refine ⟨⟨time, fun i hi => Or.inr ?_, fun _ => hstamped⟩, h.fits, ?_, h.wf, hstop⟩
  · have hget := Mem.slice_getElem? m' (seg.chunkBase c) sizeofChunkHeader i hi
    rw [hstamped] at hget
    rw [List.getD_eq_getElem?_getD, hget, Option.getD_some]
  · rw [← h.content]
    exact Mem.slice_congr fun x h₁ h₂ => hm x ⟨by omega, by omega⟩ (by omega)

/-- Nothing being written, the tag behind the last record is zero. -/
theorem Quiet.toConsistent (h : Quiet seg c owner ws m) (hs : seg.Sound) :
    Consistent seg c owner ws m := by
  have hfront : seg.frontier c ws = seg.bodyBase c + sizes (seg.entries ws) := rfl
  exact h.consistent hs (fun _ _ _ => rfl) fun hroom =>
    ⟨h.zero _ (by omega) (by omega), h.zero _ (by omega) (by omega)⟩

/-- A freshly stamped chunk. -/
theorem quiet_nil (hs : seg.Sound) {time : UInt64}
    (hheader : m.slice (seg.chunkBase c) sizeofChunkHeader =
      (seg.chunkHeader owner time).toBytes)
    (hzero : ∀ x, seg.bodyBase c ≤ x → x < seg.chunkBase c + seg.chunkBytes → m x = 0) :
    Quiet seg c owner [] m :=
  quiet_iff.mpr (Holds.nil hs hheader hzero)

/-- A chunk that was claimed and is not fully stamped. -/
theorem consistent_nil (hs : seg.Sound) {time : UInt64}
    (hheader : ∀ i, i < sizeofChunkHeader → m (seg.chunkBase c + i) = 0 ∨
      m (seg.chunkBase c + i) = (seg.chunkHeader owner time).toBytes.getD i 0)
    (hzero : ∀ x, seg.bodyBase c ≤ x → x < seg.chunkBase c + seg.chunkBytes → m x = 0) :
    Consistent seg c owner [] m := by
  have hbody := hs.bodyBase_add c
  have hfront : seg.frontier c [] = seg.bodyBase c := rfl
  refine ⟨⟨time, hheader, fun h => absurd rfl h⟩, Nat.zero_le _, rfl,
    (fun e he => by cases he), fun hroom => ?_⟩
  have hnil : sizes (seg.entries []) = 0 := rfl
  rw [hfront]
  exact ⟨hzero _ (by omega) (by omega), hzero _ (by omega) (by omega)⟩

/-- The records of the next publication. -/
def Segment.nextEntries (seg : Segment) (ws : List Written) (w : Written) : List Entry :=
  w.entries seg.capacity (UInt16.ofNat (seg.entries ws).length)

theorem entries_concat (seg : Segment) (ws : List Written) (w : Written) :
    seg.entries (ws ++ [w]) = seg.entries ws ++ seg.nextEntries ws w := by
  unfold Segment.entries Segment.nextEntries
  rw [layout_concat, Nat.zero_add]
  rfl

/-- **A publication is complete** when its records are laid down behind the others. -/
theorem Quiet.extend (h : Quiet seg c owner ws m) (hs : seg.Sound) {w : Written}
    (hfits : sizes (seg.entries ws) + sizes (seg.nextEntries ws w) ≤ seg.capacity)
    (hwf : ∀ e ∈ seg.nextEntries ws w, e.Wf) :
    Quiet seg c owner (ws ++ [w])
      (m.store (seg.frontier c ws) (encode (seg.nextEntries ws w))) := by
  rw [quiet_iff, entries_concat]
  exact (quiet_iff.mp h).append hs hfits hwf

end Sub0Log.Producer
