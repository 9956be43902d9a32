import Sub0Log.System.Live
import Sub0Log.System.RoundTrip

/-!
# The chained path writes the plain path's Message

`emitRecord` encodes a pack in one of two ways. A pack of fixed-size arguments goes through
`encodeArgs`, into a record sized by `upperBoundSize`; one with a Bytes argument goes through
`emitChained`, which measures and writes on its own. A reader that knows nothing of
Continuations has to find the same Message either way.

`encodeArgs_of_le` evaluates `encodeArgs` wherever its capacity is not in the way: the bytes
are those `emitChained` writes, argument by argument. **`message_agrees`** says it of the
memory of any run.
-/

open Bytes Interleaving

namespace Sub0Log.System

open Wire Producer

/-! ### One argument -/

/-- A view longer than the inline cap, which is what `encodeBytesOne` reports. A C string
was cut by its scan before. -/
def exceedsInline : Arg → Bool
  | .view data => decide (cInlineBytesCap < data.length)
  | _ => false

/-- The inline part is what fits the cap. -/
theorem inlineLen_eq {a : Arg} (h : a.isBytes = true) :
    a.inlineLen = min a.value.length cInlineBytesCap := by
  have htake := congrArg List.length (take_inlineLen h)
  have hle : a.inlineLen ≤ a.rawBytesOf.length := by
    unfold Arg.inlineLen Arg.rawLen
    rw [if_pos h]
    exact le_trans (Nat.min_le_left _ _) (Nat.min_le_left _ _)
  rw [List.length_take, List.length_take, Nat.min_eq_left hle] at htake
  rw [htake, Nat.min_comm]

/-- What a Bytes argument takes in the Message. -/
theorem writeOne_bytes {a : Arg} (h : a.isBytes = true) :
    a.writeOne = leBytes 2 (min a.value.length cInlineBytesCap) ++
      a.value.take cInlineBytesCap := by
  unfold Arg.writeOne
  rw [if_pos h, take_inlineLen h, inlineLen_eq h]

/-- The scan of `boundedLength` measures the inline part of a C string. -/
theorem boundedLength_eq (text : Option (List UInt8)) :
    Arg.boundedLength text = min (Arg.cstring text).value.length cInlineBytesCap := by
  cases text with
  | none => rfl
  | some text =>
    show scanLength cInlineBytesCap text = _
    rw [scanLength_eq, Nat.min_comm]
    rfl

/-- What `boundedLength` lets through of a C string. -/
theorem take_boundedLength (text : Option (List UInt8)) :
    (text.getD []).take (Arg.boundedLength text) =
      (Arg.cstring text).value.take cInlineBytesCap := by
  cases text with
  | none => rfl
  | some text =>
    have heq : text.takeWhile (· ≠ 0) = text.take (text.takeWhile (· ≠ 0)).length :=
      List.prefix_iff_eq_take.mp (List.takeWhile_prefix _)
    show text.take (scanLength cInlineBytesCap text) = (text.takeWhile (· ≠ 0)).take _
    rw [scanLength_eq]
    conv_rhs => rw [heq, List.take_take]

/-- Both size tables give an argument the same bytes. -/
theorem upperBoundOne_eq (a : Arg) : a.upperBoundOne = a.inlineBytes := by
  by_cases h : a.isBytes = true
  · unfold Arg.inlineBytes
    rw [if_pos h, inlineLen_eq h]
    cases a with
    | view data => rfl
    | cstring text => exact congrArg (2 + ·) (boundedLength_eq text)
    | _ => cases h
  · unfold Arg.inlineBytes
    rw [if_neg h]
    cases a with
    | view | cstring => exact absurd rfl h
    | _ => rfl

/-- Where there is room for it, the inline part is written, and nothing but the cap cuts. -/
theorem encodeBytesOne_of_le {left : Nat} {data : List UInt8}
    (h : 2 + min data.length cInlineBytesCap ≤ left) :
    encodeBytesOne left data =
      (leBytes 2 (min data.length cInlineBytesCap) ++ data.take cInlineBytesCap,
        decide (cInlineBytesCap < data.length)) := by
  have hcopy : min data.length (min cInlineBytesCap (left - 2)) =
      min data.length cInlineBytesCap := by omega
  have htake : data.take (min data.length cInlineBytesCap) = data.take cInlineBytesCap := by
    rw [Nat.min_comm, ← List.take_take, List.take_length]
  have hcut : min data.length cInlineBytesCap < data.length ↔ cInlineBytesCap < data.length := by
    omega
  unfold encodeBytesOne
  rw [if_neg (by omega)]
  simp only [hcopy, htake, hcut]

/-- One step of `encodeArgs` that has room for its argument. -/
theorem encodeOne_of_le {capacity : Nat} {r : EncodeResult} {a : Arg}
    (h : r.bytes.length + a.upperBoundOne ≤ capacity) :
    encodeOne capacity r a = ⟨r.bytes ++ a.writeOne, r.truncated || exceedsInline a⟩ := by
  cases a with
  | view data =>
    have hroom : 2 + min data.length cInlineBytesCap ≤ capacity - r.bytes.length :=
      Nat.le_sub_of_add_le' h
    simp only [encodeOne, encodeBytesOne_of_le hroom]
    rw [writeOne_bytes rfl]
    rfl
  | cstring text =>
    -- the scan has cut the text, so the cap finds nothing left to cut
    have hlength : ((Arg.cstring text).value.take cInlineBytesCap).length =
        min (Arg.cstring text).value.length cInlineBytesCap := by
      rw [List.length_take, Nat.min_comm]
    have hroom : 2 + min ((Arg.cstring text).value.take cInlineBytesCap).length
        cInlineBytesCap ≤ capacity - r.bytes.length := by
      rw [hlength, Nat.min_assoc, Nat.min_self, ← boundedLength_eq]
      exact Nat.le_sub_of_add_le' h
    have hcut : ¬cInlineBytesCap < min (Arg.cstring text).value.length cInlineBytesCap :=
      Nat.not_lt_of_le (Nat.min_le_right _ _)
    simp only [encodeOne, take_boundedLength, encodeBytesOne_of_le hroom]
    rw [writeOne_bytes rfl, hlength, Nat.min_assoc, Nat.min_self, List.take_take, Nat.min_self,
      decide_eq_false hcut]
    rfl
  | _ => exact congrArg (EncodeResult.mk _) (Bool.or_false _).symm

/-! ### A pack -/

/-- `encodeArgs` from any point of a pack on that has room for the rest. -/
theorem foldl_encodeOne {capacity : Nat} (args : List Arg) (r : EncodeResult)
    (h : r.bytes.length + upperBoundSize args ≤ capacity) :
    args.foldl (encodeOne capacity) r =
      ⟨r.bytes ++ args.flatMap Arg.writeOne, r.truncated || args.any exceedsInline⟩ := by
  induction args generalizing r with
  | nil => rw [List.foldl_nil, List.flatMap_nil, List.append_nil, List.any_nil, Bool.or_false]
  | cons a args ih =>
    have hsum : upperBoundSize (a :: args) = a.upperBoundOne + upperBoundSize args := rfl
    rw [hsum] at h
    have hhere : r.bytes.length + a.upperBoundOne ≤ capacity := by omega
    have hrest : (r.bytes ++ a.writeOne).length + upperBoundSize args ≤ capacity := by
      rw [List.length_append, a.writeOne_length, ← upperBoundOne_eq]
      omega
    rw [List.foldl_cons, encodeOne_of_le hhere, ih _ hrest, List.flatMap_cons, List.any_cons,
      List.append_assoc, Bool.or_assoc]

/-- **`encodeArgs`** with room for its upper bound. -/
theorem encodeArgs_of_le {capacity : Nat} {args : List Arg}
    (h : upperBoundSize args ≤ capacity) :
    encodeArgs capacity args = ⟨args.flatMap Arg.writeOne, args.any exceedsInline⟩ := by
  unfold encodeArgs
  rw [foldl_encodeOne args ⟨[], false⟩ (by rwa [List.length_nil, Nat.zero_add])]
  rfl

theorem upperBoundSize_eq (args : List Arg) :
    upperBoundSize args = (args.map Arg.inlineBytes).sum := by
  unfold upperBoundSize
  exact congrArg List.sum (List.map_congr_left fun a _ => upperBoundOne_eq a)

theorem messagePayloadBytes_eq (args : List Arg) :
    messagePayloadBytes args = sizeofMessagePayload + upperBoundSize args := by
  rw [upperBoundSize_eq]
  rfl

theorem flatMap_writeOne_length (args : List Arg) :
    (args.flatMap Arg.writeOne).length = upperBoundSize args := by
  rw [List.length_flatMap, upperBoundSize_eq]
  exact congrArg List.sum (List.map_congr_left fun a _ => a.writeOne_length)

theorem any_exceedsInline_iff (args : List Arg) :
    args.any exceedsInline = true ↔ ∃ data, Arg.view data ∈ args ∧ cInlineBytesCap < data.length := by
  rw [List.any_eq_true]
  constructor
  · rintro ⟨a, ha, hlong⟩
    cases a with
    | view data => exact ⟨data, ha, of_decide_eq_true hlong⟩
    | _ => cases hlong
  · rintro ⟨data, ha, hlong⟩
    exact ⟨_, ha, decide_eq_true hlong⟩

/-! ### The Message in memory -/

/-- A Message whose arguments fit the cap is one record, and nothing of it is cut. -/
theorem entries_short {capacity : Nat} {sequence : UInt16} {m : Emission}
    (hfits : sizes ((Written.message m).entries capacity sequence) ≤ capacity)
    (hlength : m.payload.length < 2 ^ 16)
    (hshort : ∀ a ∈ m.args, a.value.length ≤ cInlineBytesCap) :
    (Written.message m).entries capacity sequence = [⟨.message, 0, sequence, m.payload⟩] := by
  have hslots : contSlots m.args = [] := by
    by_contra hne
    obtain ⟨a, ha, hlong⟩ := (contSlots_ne_nil_iff m.args).mp hne
    exact absurd hlong (Nat.not_lt_of_le (hshort a ha))
  have hover : (m.args.any fun a => a.isBytes && a.overCeiling) = false := by
    refine List.any_eq_false.mpr fun a ha hlong => ?_
    have hceiling : cInlineBytesCap ≤ cArgCeiling := by decide
    exact absurd ((overCeiling_iff a).mp hlong)
      (Nat.not_lt_of_le (le_trans (hshort a ha) hceiling))
  -- the Message alone is the chain, and it fits
  have hroom : recordFootprint (messagePayloadBytes m.args) ≤ capacity := by
    refine le_trans ?_ hfits
    rw [← m.payload_length]
    exact Nat.le_add_right _ _
  have hchained : m.chained capacity = true := by
    unfold Emission.chained chainBytes
    rw [hslots, Bool.and_eq_true, decide_eq_true_eq, decide_eq_true_eq]
    refine ⟨⟨?_, hroom⟩, hroom⟩
    rw [← m.payload_length]
    exact Nat.le_of_lt_succ hlength
  have hnone : m.slots capacity = [] := by
    unfold Emission.slots
    rw [hchained, if_pos rfl, hslots]
  have huncut : m.anyTruncated capacity = false := by
    unfold Emission.anyTruncated
    rw [hchained, hover]
    rfl
  show (_ :: continuationEntries m.siteId _ (m.slots capacity)) = _
  rw [hnone, huncut]
  rfl

/-- The records of a publication lie behind those before it. -/
theorem mem_place_next {seg : Segment} (c : Nat) {before after : List Written} {w : Written}
    {p : Nat × Entry} (hp : p ∈ place (seg.frontier c before) (seg.nextEntries before w)) :
    p ∈ place (seg.bodyBase c) (seg.entries (before ++ w :: after)) := by
  have hprefix : before ++ [w] <+: before ++ w :: after := by
    refine (List.prefix_append_right_inj before).mpr ⟨after, rfl⟩
  obtain ⟨rest, hrest⟩ := entries_grow seg hprefix
  rw [← hrest, entries_concat, List.append_assoc, place_append, place_append]
  exact List.mem_append_right _ (List.mem_append_left _ hp)

variable {τ : Type} [DecidableEq τ] {lg : Logger τ}

/-- What is in a thread's part of a chunk was published by it. -/
theorem committed_of_writtenIn {seg : Segment} {s : State τ} {t : τ} {c : Nat} {w : Written}
    (h : w ∈ writtenIn seg c (s.hist t)) :
    ∃ a, seg.chunkOf a = c ∧ Event.committed t a w ∈ s.trace := by
  obtain ⟨event, hevent, hhere⟩ := List.mem_filterMap.mp h
  obtain ⟨htrace, rfl⟩ := State.mem_hist.mp hevent
  cases event with
  | committed t a w' =>
    by_cases hchunk : seg.chunkOf a = c
    · rw [Event.writtenIn?, if_pos hchunk] at hhere
      exact ⟨a, hchunk, Option.some.inj hhere ▸ htrace⟩
    · rw [Event.writtenIn?, if_neg hchunk] at hhere
      cases hhere
  | claimed | dropped | truncated => cases hhere

end Sub0Log.System
