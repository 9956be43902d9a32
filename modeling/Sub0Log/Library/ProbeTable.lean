import Mathlib

/-!
# A table of keys that are never removed

Threads share a table with open addressing: `path key j` is the slot that the `j`-th probe for
`key` looks at, and a call makes at most `limit` probes. A call that records a key exchanges it
into the first slot of its path that is empty or holds the key already, then stores a value
there; one that looks a key up reads along the same path. No key is ever removed, and a key of
`0` is an empty slot.

The theory is one of histories. An `Event` is one atomic step, and what the table holds is
read off the events so far (`keyAt`, `valueAt`). A history is a `Run` when every step saw the
table as it was at that moment (`Sound`), and the steps of each call are those of its code as
far as they go (`CallSteps`). A beginning of a run is a run, so what a theorem says of a run it
says of every moment of it.

* `Run.key_mono` — a key stays;
* `Run.key_path`, `Run.key_unique` — a key lies on its own path behind other keys, and in one
  slot only;
* `Run.lookup_recorded` — a lookup finds what was recorded last;
* `Run.lookup_unrecorded` — and nothing for a key that never was;
* `Run.counted_iff` — a call is counted when all its probes met other keys.
-/

namespace ProbeTable

/-! ### Histories -/

/-- One step of call number `i` of thread `t`. -/
inductive Event (τ K σ V : Type)
  | invoked (t : τ) (i : ℕ)
  /-- The key of a slot was loaded. -/
  | probed (t : τ) (i : ℕ) (slot : σ) (key : K)
  /-- A slot's key was exchanged for `key` if it was `0`; it was `found`. -/
  | exchanged (t : τ) (i : ℕ) (slot : σ) (key found : K)
  | loaded (t : τ) (i : ℕ) (slot : σ) (value : V)
  | stored (t : τ) (i : ℕ) (slot : σ) (value : V)
  /-- The call gave up and was counted. -/
  | counted (t : τ) (i : ℕ)
  | returned (t : τ) (i : ℕ) (result : Option V)
  deriving DecidableEq

/-- What a thread may call. -/
inductive Call (K V : Type)
  | record (key : K) (value : V)
  | lookup (key : K)

variable {τ K σ V : Type}

/-- The key a call is about. -/
def Call.key : Call K V → K
  | record key _ | lookup key => key

namespace Event

/-- Whose step it is. -/
def tag : Event τ K σ V → τ × ℕ
  | invoked t i | probed t i _ _ | exchanged t i _ _ _ | loaded t i _ _ | stored t i _ _
  | counted t i | returned t i _ => (t, i)

def isCounted : Event τ K σ V → Bool
  | counted _ _ => true
  | _ => false

def isWrite : Event τ K σ V → Bool
  | exchanged _ _ _ _ _ | stored _ _ _ _ => true
  | _ => false

/-- The slot and the key a probe met. -/
def probe? : Event τ K σ V → Option (σ × K)
  | probed _ _ slot key => some (slot, key)
  | exchanged _ _ slot _ found => some (slot, found)
  | _ => none

variable [DecidableEq σ]

/-- The value stored into a slot. -/
def stored? (slot : σ) : Event τ K σ V → Option V
  | stored _ _ s value => if s = slot then some value else none
  | _ => none

theorem stored?_eq_some {slot : σ} {value : V} {e : Event τ K σ V} :
    e.stored? slot = some value ↔ ∃ t i, e = stored t i slot value := by
  constructor
  · intro h
    cases e with
    | stored t i s value' =>
      by_cases hhere : s = slot
      · rw [stored?, if_pos hhere] at h
        subst hhere
        exact ⟨t, i, by rw [Option.some.inj h]⟩
      · rw [stored?, if_neg hhere] at h
        cases h
    | _ => cases h
  · rintro ⟨t, i, rfl⟩
    rw [stored?, if_pos rfl]

variable [Zero K] [DecidableEq K]

/-- The key put into a slot. -/
def claim? (slot : σ) : Event τ K σ V → Option K
  | exchanged _ _ s key found => if s = slot ∧ found = 0 then some key else none
  | _ => none

theorem claim?_eq_some {slot : σ} {key : K} {e : Event τ K σ V} :
    e.claim? slot = some key ↔ ∃ t i, e = exchanged t i slot key 0 := by
  constructor
  · intro h
    cases e with
    | exchanged t i s key' found =>
      by_cases hhere : s = slot ∧ found = 0
      · rw [claim?, if_pos hhere] at h
        obtain ⟨rfl, rfl⟩ := hhere
        exact ⟨t, i, by rw [Option.some.inj h]⟩
      · rw [claim?, if_neg hhere] at h
        cases h
    | _ => cases h
  · rintro ⟨t, i, rfl⟩
    rw [claim?, if_pos ⟨rfl, rfl⟩]

end Event

section Tables

variable [DecidableEq σ]

/-- The value of a slot after some events. -/
def valueAt [Zero V] (tr : List (Event τ K σ V)) (slot : σ) : V :=
  (tr.filterMap (Event.stored? slot)).getLastD 0

theorem valueAt_concat [Zero V] (tr : List (Event τ K σ V)) (e : Event τ K σ V) (slot : σ) :
    valueAt (tr ++ [e]) slot = (e.stored? slot).getD (valueAt tr slot) := by
  unfold valueAt
  rw [List.filterMap_append]
  cases h : e.stored? slot with
  | none => rw [List.filterMap_cons_none h, List.filterMap_nil, List.append_nil, Option.getD_none]
  | some value =>
    rw [List.filterMap_cons_some h, List.filterMap_nil, List.getLastD_concat, Option.getD_some]

/-- Without stores in between, a slot keeps its value. -/
theorem valueAt_append [Zero V] {tr rest : List (Event τ K σ V)} {slot : σ}
    (h : ∀ t i value, .stored t i slot value ∉ rest) :
    valueAt (tr ++ rest) slot = valueAt tr slot := by
  have hnone : rest.filterMap (Event.stored? slot) = [] := by
    refine List.filterMap_eq_nil_iff.mpr fun e he => ?_
    refine Option.eq_none_iff_forall_ne_some.mpr fun value hvalue => ?_
    obtain ⟨t, i, rfl⟩ := Event.stored?_eq_some.mp hvalue
    exact h t i value he
  unfold valueAt
  rw [List.filterMap_append, hnone, List.append_nil]

variable [Zero K] [DecidableEq K]

/-- The key of a slot after some events. -/
def keyAt (tr : List (Event τ K σ V)) (slot : σ) : K :=
  (tr.filterMap (Event.claim? slot)).getLastD 0

theorem keyAt_concat (tr : List (Event τ K σ V)) (e : Event τ K σ V) (slot : σ) :
    keyAt (tr ++ [e]) slot = (e.claim? slot).getD (keyAt tr slot) := by
  unfold keyAt
  rw [List.filterMap_append]
  cases h : e.claim? slot with
  | none => rw [List.filterMap_cons_none h, List.filterMap_nil, List.append_nil, Option.getD_none]
  | some key =>
    rw [List.filterMap_cons_some h, List.filterMap_nil, List.getLastD_concat, Option.getD_some]

/-- A slot whose key changed was exchanged. -/
theorem exchanged_of_key {key : K} (hne : key ≠ 0) {tr : List (Event τ K σ V)} {slot : σ}
    (hkey : keyAt tr slot = key) :
    ∃ before t i after, tr = before ++ .exchanged t i slot key 0 :: after := by
  have hlast : key ∈ tr.filterMap (Event.claim? slot) := by
    unfold keyAt at hkey
    have hmem := List.getLastD_mem_cons (l := tr.filterMap (Event.claim? slot)) (a := (0 : K))
    rw [hkey] at hmem
    exact (List.mem_cons.mp hmem).resolve_left hne
  obtain ⟨e, he, hclaim⟩ := List.mem_filterMap.mp hlast
  obtain ⟨before, after, heq⟩ := List.append_of_mem he
  obtain ⟨t, i, rfl⟩ := Event.claim?_eq_some.mp hclaim
  exact ⟨before, t, i, after, heq⟩

variable [Zero V]

/-- The step saw the table as it was. -/
def Fits (before : List (Event τ K σ V)) : Event τ K σ V → Prop
  | .probed _ _ slot key => key = keyAt before slot
  | .exchanged _ _ slot _ found => found = keyAt before slot
  | .loaded _ _ slot value => value = valueAt before slot
  | .invoked _ _ | .stored _ _ _ _ | .counted _ _ | .returned _ _ _ => True

/-- Every step did. -/
def Sound (tr : List (Event τ K σ V)) : Prop :=
  ∀ before e after, tr = before ++ e :: after → Fits before e

variable {tr before : List (Event τ K σ V)} {slot : σ}

theorem sound_nil : Sound ([] : List (Event τ K σ V)) := by
  intro before e after h
  exact absurd h.symm (List.append_ne_nil_of_right_ne_nil _ (List.cons_ne_nil _ _))

/-- One more step. -/
theorem Sound.concat (h : Sound tr) {e : Event τ K σ V} (he : Fits tr e) :
    Sound (tr ++ [e]) := by
  intro before e' after heq
  rcases List.append_eq_append_iff.mp heq with ⟨l, rfl, hl⟩ | ⟨l, rfl, hl⟩
  · cases l with
    | nil =>
      rw [List.nil_append] at hl
      obtain ⟨rfl, -⟩ := List.cons.inj hl
      rwa [List.append_nil]
    | cons x l =>
      obtain ⟨-, hnil⟩ := List.cons.inj hl
      exact absurd hnil.symm (List.append_ne_nil_of_right_ne_nil _ (List.cons_ne_nil _ _))
  · cases l with
    | nil =>
      rw [List.nil_append] at hl
      obtain ⟨rfl, -⟩ := List.cons.inj hl
      rwa [List.append_nil] at he
    | cons x l =>
      obtain ⟨rfl, -⟩ := List.cons.inj hl
      exact h before e' l rfl

theorem Sound.of_prefix (h : Sound tr) (hpre : before <+: tr) : Sound before := by
  obtain ⟨rest, rfl⟩ := hpre
  intro a e b heq
  refine h a e (b ++ rest) ?_
  rw [heq, List.append_assoc, List.cons_append]

/-- A key stays. -/
theorem Sound.key_mono (h : Sound tr) (hpre : before <+: tr) (hkey : keyAt before slot ≠ 0) :
    keyAt tr slot = keyAt before slot := by
  obtain ⟨rest, rfl⟩ := hpre
  induction rest using List.reverseRecOn with
  | nil => rw [List.append_nil]
  | append_singleton rest e ih =>
    rw [← List.append_assoc] at h ⊢
    have hhere := ih (h.of_prefix (List.prefix_append _ _))
    rw [keyAt_concat, hhere]
    cases hclaim : e.claim? slot with
    | none => rfl
    | some key =>
      -- only an empty slot takes a key
      obtain ⟨t, i, rfl⟩ := Event.claim?_eq_some.mp hclaim
      have hfound : (0 : K) = keyAt (before ++ rest) slot := h _ _ [] rfl
      exact absurd (hhere.symm.trans hfound.symm) hkey

/-- A key that a probe met is there from then on. -/
theorem Sound.met (h : Sound tr) {e : Event τ K σ V} (he : e ∈ tr) {key : K}
    (hprobe : e.probe? = some (slot, key)) (hne : key ≠ 0) : keyAt tr slot = key := by
  obtain ⟨before, after, rfl⟩ := List.append_of_mem he
  have hhere : key = keyAt before slot := by
    have hfits := h before e after rfl
    cases e with
    | probed | exchanged =>
      cases hprobe
      exact hfits
    | _ => cases hprobe
  rw [hhere]
  exact h.key_mono (List.prefix_append _ _) (hhere ▸ hne)

/-- A key that was exchanged into its slot, or was found there, is there from then on. -/
theorem Sound.exchanged (h : Sound tr) {t : τ} {i : ℕ} {key found : K}
    (he : .exchanged t i slot key found ∈ tr) (hne : key ≠ 0) (hfound : found = 0 ∨ found = key) :
    keyAt tr slot = key := by
  rcases hfound with rfl | rfl
  · obtain ⟨before, after, rfl⟩ := List.append_of_mem he
    have hhere : keyAt (before ++ [.exchanged t i slot key 0]) slot = key := by
      rw [keyAt_concat, Event.claim?_eq_some.mpr ⟨t, i, rfl⟩, Option.getD_some]
    have hpre : before ++ [.exchanged t i slot key 0] <+:
        before ++ .exchanged t i slot key 0 :: after := ⟨after, by simp⟩
    rw [h.key_mono hpre (fun hzero => hne (hhere.symm.trans hzero)), hhere]
  · exact h.met he rfl hne

end Tables

/-! ### Calls -/

section Calls

variable [Zero K] (path : K → ℕ → σ) (limit : ℕ) (t : τ) (i : ℕ)

/-- The steps of a call that records `value` under `key`, from probe `j` on. -/
inductive Recording (key : K) (value : V) : ℕ → List (Event τ K σ V) → Prop
  | spent : Recording key value limit [.counted t i]
  | here {j : ℕ} {found : K} (hj : j < limit) (hfound : found = 0 ∨ found = key) :
      Recording key value j
        [.exchanged t i (path key j) key found, .stored t i (path key j) value]
  | next {j : ℕ} {found : K} {rest : List (Event τ K σ V)} (hj : j < limit) (hfull : found ≠ 0)
      (hother : found ≠ key) (hrest : Recording key value (j + 1) rest) :
      Recording key value j (.exchanged t i (path key j) key found :: rest)

variable {path limit t i} {c : Call K V} {key : K} {value : V} {j : ℕ}
  {body x y : List (Event τ K σ V)} {result : Option V} {e : Event τ K σ V}

/-- The steps of a call are its own, and neither its beginning nor its end. -/
def Event.Inside (t : τ) (i : ℕ) (e : Event τ K σ V) : Prop :=
  e.tag = (t, i) ∧ e ≠ .invoked t i ∧ ∀ result, e ≠ .returned t i result

theorem Recording.inside (h : Recording path limit t i key value j body) :
    ∀ e ∈ body, e.Inside t i := by
  induction h with
  | spent | here => simp [Event.Inside, Event.tag]
  | next _ _ _ _ ih =>
    intro e he
    rcases List.mem_cons.mp he with rfl | htail
    · simp [Event.Inside, Event.tag]
    · exact ih e htail

/-- A call exchanges its key along its path, behind slots that it met other keys in. -/
theorem Recording.exchanged {slot : σ} {key' found : K}
    (h : Recording path limit t i key value j body)
    (heq : body = x ++ .exchanged t i slot key' found :: y) :
    key' = key ∧ ∃ k, j ≤ k ∧ k < limit ∧ slot = path key k ∧ ∀ m, j ≤ m → m < k →
      ∃ other, other ≠ 0 ∧ other ≠ key ∧ .exchanged t i (path key m) key other ∈ x := by
  induction h generalizing x with
  | spent =>
    rcases x with _ | ⟨_, _ | _⟩ <;> simp at heq
  | @here j _ hj =>
    rcases x with _ | ⟨_, _ | ⟨_, _ | _⟩⟩
    · obtain ⟨hhead, -⟩ := List.cons.inj heq
      cases hhead
      exact ⟨rfl, j, Nat.le_refl _, hj, rfl, fun m h₁ h₂ => absurd h₁ (Nat.not_le_of_lt h₂)⟩
    all_goals simp at heq
  | @next j other _ hj hfull hother _ ih =>
    cases x with
    | nil =>
      obtain ⟨hhead, -⟩ := List.cons.inj heq
      cases hhead
      exact ⟨rfl, j, Nat.le_refl _, hj, rfl, fun m h₁ h₂ => absurd h₁ (Nat.not_le_of_lt h₂)⟩
    | cons first x =>
      obtain ⟨rfl, htail⟩ := List.cons.inj heq
      obtain ⟨hkey, k, hjk, hk, hslot, hbehind⟩ := ih htail
      refine ⟨hkey, k, Nat.le_of_succ_le hjk, hk, hslot, fun m h₁ h₂ => ?_⟩
      rcases Nat.eq_or_lt_of_le h₁ with rfl | hlt
      · exact ⟨other, hfull, hother, List.mem_cons_self⟩
      · obtain ⟨other', h₀, h₁, hmem⟩ := hbehind m hlt h₂
        exact ⟨other', h₀, h₁, List.mem_cons_of_mem _ hmem⟩

/-- It stores into the slot it exchanged its key into, or found it in. -/
theorem Recording.stored {slot : σ} {value' : V}
    (h : Recording path limit t i key value j body)
    (heq : body = x ++ .stored t i slot value' :: y) :
    value' = value ∧ ∃ found, (found = 0 ∨ found = key) ∧ .exchanged t i slot key found ∈ x := by
  induction h generalizing x with
  | spent =>
    rcases x with _ | ⟨_, _ | _⟩ <;> simp at heq
  | @here j found hj hfound =>
    rcases x with _ | ⟨_, _ | ⟨_, _ | _⟩⟩
    · cases heq
    · obtain ⟨rfl, htail⟩ := List.cons.inj heq
      obtain ⟨hhead, -⟩ := List.cons.inj htail
      cases hhead
      exact ⟨rfl, found, hfound, List.mem_singleton.mpr rfl⟩
    all_goals simp at heq
  | @next j other _ hj hfull hother _ ih =>
    cases x with
    | nil => cases heq
    | cons first x =>
      obtain ⟨rfl, htail⟩ := List.cons.inj heq
      obtain ⟨hvalue, found, hfound, hmem⟩ := ih htail
      exact ⟨hvalue, found, hfound, List.mem_cons_of_mem _ hmem⟩

/-- A call that is not counted has stored. -/
theorem Recording.stored_or_counted (h : Recording path limit t i key value j body) :
    .counted t i ∈ body ∨ ∃ slot, .stored t i slot value ∈ body := by
  induction h with
  | spent => exact Or.inl List.mem_cons_self
  | here => exact Or.inr ⟨_, List.mem_cons_of_mem _ List.mem_cons_self⟩
  | next _ _ _ _ ih =>
    rcases ih with hcounted | ⟨slot, hstored⟩
    · exact Or.inl (List.mem_cons_of_mem _ hcounted)
    · exact Or.inr ⟨slot, List.mem_cons_of_mem _ hstored⟩

variable (path limit t i) in
/-- The steps of a call that looks `key` up, from probe `j` on, and what it returns. -/
inductive Looking [Zero V] (key : K) : ℕ → List (Event τ K σ V) → V → Prop
  | spent : Looking key limit [.counted t i] 0
  | here {j : ℕ} {value : V} (hj : j < limit) :
      Looking key j [.probed t i (path key j) key, .loaded t i (path key j) value] value
  | empty {j : ℕ} (hj : j < limit) (hne : (0 : K) ≠ key) :
      Looking key j [.probed t i (path key j) 0] 0
  | next {j : ℕ} {found : K} {rest : List (Event τ K σ V)} {value : V} (hj : j < limit)
      (hfull : found ≠ 0) (hother : found ≠ key) (hrest : Looking key (j + 1) rest value) :
      Looking key j (.probed t i (path key j) found :: rest) value

variable (path limit t i) in
/-- The steps of a call, and its result. -/
inductive CallSteps [Zero V] : Call K V → List (Event τ K σ V) → Option V → Prop
  | record {key : K} {value : V} {body : List (Event τ K σ V)}
      (h : Recording path limit t i key value 0 body) : CallSteps (.record key value) body none
  | lookup {key : K} {value : V} {body : List (Event τ K σ V)}
      (h : Looking path limit t i key 0 body value) : CallSteps (.lookup key) body (some value)

theorem Looking.inside [Zero V] (h : Looking path limit t i key j body value) :
    ∀ e ∈ body, e.Inside t i := by
  induction h with
  | spent | here | empty => simp [Event.Inside, Event.tag]
  | next _ _ _ _ ih =>
    intro e he
    rcases List.mem_cons.mp he with rfl | htail
    · simp [Event.Inside, Event.tag]
    · exact ih e htail

theorem CallSteps.inside [Zero V] (h : CallSteps path limit t i c body result) :
    ∀ e ∈ body, e.Inside t i := by
  cases h with
  | record h => exact h.inside
  | lookup h => exact h.inside

/-- A lookup writes nothing. -/
theorem Looking.reads [Zero V] (h : Looking path limit t i key j body value) :
    ∀ e ∈ body, e.isWrite = false := by
  induction h with
  | spent | here | empty => simp [Event.isWrite]
  | next _ _ _ _ ih =>
    intro e he
    rcases List.mem_cons.mp he with rfl | htail
    · rfl
    · exact ih e htail

/-- A lookup on a path that leads to its key loads the value of the key's slot. -/
theorem Looking.finds [Zero V] {k : ℕ}
    (h : Looking path limit t i key j body value) (hjk : j ≤ k) (hk : k < limit)
    (hmet : ∀ e ∈ body, ∀ slot found, e.probe? = some (slot, found) →
      (slot = path key k → found = key) ∧
      ∀ m < k, slot = path key m → found ≠ 0 ∧ found ≠ key) :
    .loaded t i (path key k) value ∈ body := by
  induction h with
  | spent => exact absurd hjk (Nat.not_le_of_lt hk)
  | @here j value hj =>
    rcases Nat.eq_or_lt_of_le hjk with rfl | hlt
    · exact List.mem_cons_of_mem _ List.mem_cons_self
    · exact absurd rfl ((hmet _ List.mem_cons_self _ _ rfl).2 j hlt rfl).2
  | @empty j hj hne' =>
    rcases Nat.eq_or_lt_of_le hjk with rfl | hlt
    · exact absurd ((hmet _ List.mem_cons_self _ _ rfl).1 rfl) hne'
    · exact absurd rfl ((hmet _ List.mem_cons_self _ _ rfl).2 j hlt rfl).1
  | @next j found rest value hj hfull hother _ ih =>
    rcases Nat.eq_or_lt_of_le hjk with rfl | hlt
    · exact absurd ((hmet _ List.mem_cons_self _ _ rfl).1 rfl) hother
    · exact List.mem_cons_of_mem _ (ih hlt fun e he => hmet e (List.mem_cons_of_mem _ he))

/-- A lookup that finds nothing on its path returns nothing. -/
theorem Looking.misses [Zero V]
    (h : Looking path limit t i key j body value)
    (hmet : ∀ e ∈ body, ∀ slot found, e.probe? = some (slot, found) → found ≠ key) :
    value = 0 := by
  induction h with
  | spent | empty => rfl
  | here => exact absurd rfl (hmet _ List.mem_cons_self _ _ rfl)
  | next _ _ _ _ ih => exact ih fun e he => hmet e (List.mem_cons_of_mem _ he)

/-! ### Calls that give up -/

/-- What the probes of some steps met. -/
def probes (body : List (Event τ K σ V)) : List (σ × K) := body.filterMap Event.probe?

/-- All probes a call may make met other keys. -/
def Unresolved (limit : ℕ) (key : K) (met : List (σ × K)) : Prop :=
  met.length = limit ∧ ∀ p ∈ met, p.2 ≠ 0 ∧ p.2 ≠ key

instance [DecidableEq K] (limit : ℕ) (key : K) (met : List (σ × K)) :
    Decidable (Unresolved limit key met) := inferInstanceAs (Decidable (_ ∧ _))

variable (path limit) in
/-- The probes of some steps follow the path from `j` on, and the steps are counted once if
all of them met other keys, up to the limit. -/
structure Probing [DecidableEq K] (key : K) (j : ℕ) (body : List (Event τ K σ V)) : Prop where
  slots : (probes body).map Prod.fst = (List.range' j (probes body).length).map (path key)
  counted : body.countP Event.isCounted =
    if j + (probes body).length = limit ∧ ∀ p ∈ probes body, p.2 ≠ 0 ∧ p.2 ≠ key then 1 else 0

section Probing

variable [DecidableEq K]

theorem Probing.spent :
    Probing path limit key limit ([.counted t i] : List (Event τ K σ V)) :=
  ⟨rfl, by simp [probes, Event.probe?, Event.isCounted]⟩

/-- A last probe met the key or an empty slot. -/
theorem Probing.last {found : K} (he : e.probe? = some (path key j, found))
    (hfound : found = 0 ∨ found = key) (hnone : ∀ e' ∈ y, e'.probe? = none)
    (hcounted : ∀ e' ∈ e :: y, e'.isCounted = false) : Probing path limit key j (e :: y) := by
  have hprobes : probes (e :: y) = [(path key j, found)] := by
    unfold probes
    rw [List.filterMap_cons_some he, List.filterMap_eq_nil_iff.mpr hnone]
  refine ⟨by rw [hprobes]; rfl, ?_⟩
  rw [hprobes, if_neg ?_]
  · refine List.countP_eq_zero.mpr fun e' he' => ?_
    rw [hcounted e' he']
    exact Bool.false_ne_true
  · rintro ⟨-, hall⟩
    have hhere := hall _ List.mem_cons_self
    exact hfound.elim hhere.1 hhere.2

/-- A probe met another key. -/
theorem Probing.next {found : K} (he : e.probe? = some (path key j, found))
    (hnot : e.isCounted = false) (hfull : found ≠ 0) (hother : found ≠ key)
    (h : Probing path limit key (j + 1) y) : Probing path limit key j (e :: y) := by
  have hprobes : probes (e :: y) = (path key j, found) :: probes y := by
    unfold probes
    rw [List.filterMap_cons_some he]
  refine ⟨?_, ?_⟩
  · rw [hprobes, List.map_cons, h.slots, List.length_cons, List.range'_succ, List.map_cons]
  · rw [List.countP_cons, hnot, h.counted, hprobes, List.length_cons]
    simp only [Bool.false_eq_true, if_false, Nat.add_zero, List.mem_cons, forall_eq_or_imp]
    refine if_congr ?_ rfl rfl
    rw [show j + 1 + (probes y).length = j + ((probes y).length + 1) by omega]
    exact ⟨fun h => ⟨h.1, ⟨hfull, hother⟩, h.2⟩, fun h => ⟨h.1, h.2.2⟩⟩

theorem Recording.probing (h : Recording path limit t i key value j body) :
    Probing path limit key j body := by
  induction h with
  | spent => exact Probing.spent
  | here hj hfound => exact Probing.last rfl hfound (by simp [Event.probe?]) (by simp [Event.isCounted])
  | next hj hfull hother _ ih => exact Probing.next rfl rfl hfull hother ih

theorem Looking.probing [Zero V] (h : Looking path limit t i key j body value) :
    Probing path limit key j body := by
  induction h with
  | spent => exact Probing.spent
  | here hj => exact Probing.last rfl (Or.inr rfl) (by simp [Event.probe?]) (by simp [Event.isCounted])
  | empty hj hne => exact Probing.last rfl (Or.inl rfl) (by simp) (by simp [Event.isCounted])
  | next hj hfull hother _ ih => exact Probing.next rfl rfl hfull hother ih

theorem CallSteps.probing [Zero V] (h : CallSteps path limit t i c body result) :
    Probing path limit c.key 0 body := by
  cases h with
  | record h => exact h.probing
  | lookup h => exact h.probing

end Probing

end Calls

/-! ### Runs -/

section Runs

/-- A step inside a call, with those before it. -/
theorem inside_of_block {t : τ} {i : ℕ} {e : Event τ K σ V} {body rest x : List (Event τ K σ V)} {result : Option V}
    (heq : .invoked t i :: (body ++ [.returned t i result]) = x ++ e :: rest)
    (hfirst : e ≠ .invoked t i) (hlast : e ≠ .returned t i result) :
    ∃ x' y, x = .invoked t i :: x' ∧ body = x' ++ e :: y := by
  cases x with
  | nil => exact absurd (List.cons.inj heq).1.symm hfirst
  | cons first x =>
    obtain ⟨rfl, htail⟩ := List.cons.inj heq
    rcases List.append_eq_append_iff.mp htail with ⟨l, rfl, hl⟩ | ⟨l, hl, hlast'⟩
    · cases l with
      | nil => exact absurd (List.cons.inj hl).1.symm hlast
      | cons first l =>
        have hnil := (List.cons.inj hl).2
        exact absurd hnil.symm (List.append_ne_nil_of_right_ne_nil _ (List.cons_ne_nil _ _))
    · cases l with
      | nil => exact absurd (List.cons.inj hlast').1 hlast
      | cons first l =>
        obtain ⟨rfl, -⟩ := List.cons.inj hlast'
        exact ⟨x, l, rfl, hl⟩

variable [DecidableEq τ]

/-- The steps of one call in a history. -/
def stepsOf (t : τ) (i : ℕ) (tr : List (Event τ K σ V)) : List (Event τ K σ V) :=
  tr.filter fun e => e.tag = (t, i)

theorem mem_stepsOf {tr : List (Event τ K σ V)} {t : τ} {i : ℕ} {e : Event τ K σ V} :
    e ∈ stepsOf t i tr ↔ e ∈ tr ∧ e.tag = (t, i) := by
  unfold stepsOf
  rw [List.mem_filter, decide_eq_true_eq]

theorem stepsOf_append {t : τ} {i : ℕ} (a b : List (Event τ K σ V)) :
    stepsOf t i (a ++ b) = stepsOf t i a ++ stepsOf t i b := List.filter_append ..

theorem stepsOf_cons {t : τ} {i : ℕ} {e : Event τ K σ V} (he : e.tag = (t, i)) (b : List (Event τ K σ V)) :
    stepsOf t i (e :: b) = e :: stepsOf t i b :=
  List.filter_cons_of_pos (decide_eq_true he)

variable [DecidableEq σ] [Zero K] [DecidableEq K] [Zero V]

/-- A history in which call `i` of thread `t` is `call t i`. -/
structure Run (path : K → ℕ → σ) (limit : ℕ) (call : τ → ℕ → Option (Call K V))
    (tr : List (Event τ K σ V)) : Prop where
  sound : Sound tr
  steps : ∀ t i, stepsOf t i tr = [] ∨ ∃ c body result, call t i = some c ∧
    CallSteps path limit t i c body result ∧
    stepsOf t i tr <+: .invoked t i :: (body ++ [.returned t i result])

variable {path : K → ℕ → σ} {limit : ℕ} {call : τ → ℕ → Option (Call K V)}
  {tr before after : List (Event τ K σ V)} {t : τ} {i : ℕ} {slot : σ} {key : K} {value : V}
  {e : Event τ K σ V}

/-- A beginning of a run is a run. -/
theorem Run.of_prefix (h : Run path limit call tr) (hpre : before <+: tr) :
    Run path limit call before := by
  refine ⟨h.sound.of_prefix hpre, fun t i => ?_⟩
  have hsteps : stepsOf t i before <+: stepsOf t i tr := hpre.filter _
  rcases h.steps t i with hnil | ⟨c, body, result, hc, hbody, hblock⟩
  · rw [hnil] at hsteps
    exact Or.inl (List.prefix_nil.mp hsteps)
  · exact Or.inr ⟨c, body, result, hc, hbody, hsteps.trans hblock⟩

/-- The call a step belongs to, and its steps up to there. -/
theorem Run.call_of (h : Run path limit call tr) (heq : tr = before ++ e :: after)
    (he : e.tag = (t, i)) : ∃ c body result rest, call t i = some c ∧
      CallSteps path limit t i c body result ∧
      .invoked t i :: (body ++ [.returned t i result]) = stepsOf t i before ++ e :: rest := by
  subst heq
  rcases h.steps t i with hnil | ⟨c, body, result, hc, hbody, rest, hrest⟩
  · rw [stepsOf_append, stepsOf_cons he] at hnil
    exact absurd hnil (List.append_ne_nil_of_right_ne_nil _ (List.cons_ne_nil _ _))
  · refine ⟨c, body, result, stepsOf t i after ++ rest, hc, hbody, ?_⟩
    rw [← hrest, stepsOf_append, stepsOf_cons he, List.append_assoc, List.cons_append]

/-- A step inside a call of a run: those of the call before it are behind its beginning. -/
theorem Run.inside (h : Run path limit call tr) (heq : tr = before ++ e :: after)
    (he : e.Inside t i) : ∃ c body result x y, call t i = some c ∧
      CallSteps path limit t i c body result ∧ stepsOf t i before = .invoked t i :: x ∧
      body = x ++ e :: y := by
  obtain ⟨c, body, result, rest, hc, hbody, hblock⟩ := h.call_of heq he.1
  obtain ⟨x, y, hx, hy⟩ := inside_of_block hblock he.2.1 (he.2.2 result)
  exact ⟨c, body, result, x, y, hc, hbody, hx, hy⟩

/-- An exchange is one of a call that records the key, at a slot of its path behind others that
were taken before. -/
theorem Run.exchanged (h : Run path limit call tr) {found : K}
    (heq : tr = before ++ .exchanged t i slot key found :: after) :
    ∃ value k, call t i = some (.record key value) ∧ .invoked t i ∈ before ∧ k < limit ∧
      slot = path key k ∧ ∀ m < k, keyAt before (path key m) ≠ 0 ∧
        keyAt before (path key m) ≠ key := by
  have hinside : (Event.exchanged t i slot key found : Event τ K σ V).Inside t i :=
    ⟨rfl, by simp, by simp⟩
  obtain ⟨c, body, result, x, y, hc, hbody, hx, hy⟩ := h.inside heq hinside
  have hinvoked : .invoked t i ∈ before := (mem_stepsOf.mp (hx ▸ List.mem_cons_self)).1
  have hsound : Sound before := h.sound.of_prefix (heq ▸ List.prefix_append _ _)
  cases hbody with
  | @record _ value _ hrecording =>
    obtain ⟨rfl, k, -, hk, hslot, hbehind⟩ := hrecording.exchanged hy
    refine ⟨value, k, hc, hinvoked, hk, hslot, fun m hm => ?_⟩
    obtain ⟨other, hfull, hother, hmem⟩ := hbehind m (Nat.zero_le m) hm
    -- what the probe met there is still there
    have hbefore : .exchanged t i (path key m) key other ∈ before :=
      (mem_stepsOf.mp (hx ▸ List.mem_cons_of_mem _ hmem)).1
    rw [hsound.met hbefore rfl hfull]
    exact ⟨hfull, hother⟩
  | lookup hlooking =>
    have hreads := hlooking.reads (.exchanged t i slot key found)
      (hy ▸ List.mem_append_right _ List.mem_cons_self)
    cases hreads

/-- A store is one of a call in progress that records the key of the slot. -/
theorem Run.stored (h : Run path limit call tr)
    (heq : tr = before ++ .stored t i slot value :: after) :
    ∃ key, call t i = some (.record key value) ∧ (key ≠ 0 → keyAt before slot = key) ∧
      .invoked t i ∈ before ∧ ∀ result, .returned t i result ∉ before := by
  have hinside : (Event.stored t i slot value : Event τ K σ V).Inside t i :=
    ⟨rfl, by simp, by simp⟩
  obtain ⟨c, body, result, x, y, hc, hbody, hx, hy⟩ := h.inside heq hinside
  have hinvoked : .invoked t i ∈ before := (mem_stepsOf.mp (hx ▸ List.mem_cons_self)).1
  have hsound : Sound before := h.sound.of_prefix (heq ▸ List.prefix_append _ _)
  have hopen : ∀ result, .returned t i result ∉ before := by
    intro result' hmem
    have hsteps : .returned t i result' ∈ stepsOf t i before := mem_stepsOf.mpr ⟨hmem, rfl⟩
    rw [hx] at hsteps
    rcases List.mem_cons.mp hsteps with heq | hin
    · cases heq
    · exact (hbody.inside _ (hy ▸ List.mem_append_left _ hin)).2.2 result' rfl
  cases hbody with
  | @record key _ _ hrecording =>
    obtain ⟨rfl, found, hfound, hmem⟩ := hrecording.stored hy
    have hbefore : .exchanged t i slot key found ∈ before :=
      (mem_stepsOf.mp (hx ▸ List.mem_cons_of_mem _ hmem)).1
    exact ⟨key, hc, fun hne => hsound.exchanged hbefore hne hfound, hinvoked, hopen⟩
  | lookup hlooking =>
    have hreads := hlooking.reads (.stored t i slot value)
      (hy ▸ List.mem_append_right _ List.mem_cons_self)
    cases hreads

/-- **A key stays.** -/
theorem Run.key_mono (h : Run path limit call tr) (hpre : before <+: tr)
    (hkey : keyAt before slot ≠ 0) : keyAt tr slot = keyAt before slot :=
  h.sound.key_mono hpre hkey

/-- **A key lies on its own path**, behind slots with other keys; a call that records it put it
there. -/
theorem Run.key_path (h : Run path limit call tr) (hne : key ≠ 0) (hkey : keyAt tr slot = key) :
    (∃ k < limit, slot = path key k ∧ ∀ m < k, keyAt tr (path key m) ≠ 0 ∧
      keyAt tr (path key m) ≠ key) ∧
    ∃ t i value, call t i = some (.record key value) ∧ .invoked t i ∈ tr := by
  obtain ⟨before, t, i, after, heq⟩ := exchanged_of_key hne hkey
  obtain ⟨value, k, hc, hinvoked, hk, hslot, hbehind⟩ := h.exchanged heq
  have hpre : before <+: tr := heq ▸ List.prefix_append _ _
  refine ⟨⟨k, hk, hslot, fun m hm => ?_⟩, t, i, value, hc, hpre.subset hinvoked⟩
  obtain ⟨hfull, hother⟩ := hbehind m hm
  rw [h.key_mono hpre hfull]
  exact ⟨hfull, hother⟩

/-- **A key is in one slot.** -/
theorem Run.key_unique (h : Run path limit call tr) {slot' : σ} (hfull : keyAt tr slot ≠ 0)
    (heq : keyAt tr slot = keyAt tr slot') : slot = slot' := by
  obtain ⟨⟨k, -, hslot, hbehind⟩, -⟩ := h.key_path hfull rfl
  obtain ⟨⟨k', -, hslot', hbehind'⟩, -⟩ := h.key_path hfull heq.symm
  rcases Nat.lt_trichotomy k k' with hlt | rfl | hlt
  · exact absurd (congrArg (keyAt tr) hslot.symm) (hbehind' k hlt).2
  · exact hslot.trans hslot'.symm
  · have hhere : keyAt tr (path (keyAt tr slot) k') = keyAt tr slot := by
      rw [← hslot']
      exact heq.symm
    exact absurd hhere (hbehind k' hlt).2

/-- The steps of a call that has returned. -/
theorem Run.returned (h : Run path limit call tr) {result : Option V}
    (hreturned : .returned t i result ∈ tr) : ∃ c body, call t i = some c ∧
      CallSteps path limit t i c body result ∧
      stepsOf t i tr = .invoked t i :: (body ++ [.returned t i result]) := by
  have hmem : .returned t i result ∈ stepsOf t i tr := mem_stepsOf.mpr ⟨hreturned, rfl⟩
  rcases h.steps t i with hnil | ⟨c, body, result', hc, hbody, rest, hrest⟩
  · rw [hnil] at hmem
    cases hmem
  · -- nothing of the call is behind its end
    obtain ⟨x, y, hxy⟩ := List.append_of_mem hmem
    have hblock : .invoked t i :: (body ++ [.returned t i result']) =
        x ++ .returned t i result :: (y ++ rest) := by
      rw [← hrest, hxy, List.append_assoc, List.cons_append]
    by_cases hlast : (Event.returned t i result : Event τ K σ V) = .returned t i result'
    · cases hlast
      rw [← List.cons_append] at hblock
      have hnot : .returned t i result ∉ Event.invoked t i :: body := by
        intro hin
        rcases List.mem_cons.mp hin with heq | hin
        · cases heq
        · exact (hbody.inside _ hin).2.2 result rfl
      have hnil : y ++ rest = [] := by
        rcases List.append_eq_append_iff.mp hblock with ⟨l, hl, hlast⟩ | ⟨l, hl, hlast⟩
        · cases l with
          | nil => exact (List.cons.inj hlast).2.symm
          | cons first l =>
            exact absurd (List.cons.inj hlast).2.symm
              (List.append_ne_nil_of_right_ne_nil _ (List.cons_ne_nil _ _))
        · cases l with
          | nil => exact (List.cons.inj hlast).2
          | cons first l =>
            obtain ⟨rfl, -⟩ := List.cons.inj hlast
            exact absurd (hl ▸ List.mem_append_right _ List.mem_cons_self) hnot
      obtain ⟨-, rfl⟩ := List.append_eq_nil_iff.mp hnil
      refine ⟨c, body, hc, hbody, ?_⟩
      rw [← hrest, List.append_nil]
    · obtain ⟨x', y', -, hy⟩ := inside_of_block hblock (by simp) hlast
      exact absurd rfl
        ((hbody.inside _ (hy ▸ List.mem_append_right _ List.mem_cons_self)).2.2 result)

/-- A call that has returned and was not counted has stored. -/
theorem Run.recorded (h : Run path limit call tr) {result : Option V}
    (hcall : call t i = some (.record key value)) (hreturned : .returned t i result ∈ tr)
    (hcounted : .counted t i ∉ tr) : ∃ slot, .stored t i slot value ∈ tr := by
  obtain ⟨c, body, hc, hbody, hsteps⟩ := h.returned hreturned
  have hin : ∀ e ∈ body, e ∈ tr := by
    intro e he
    refine (mem_stepsOf.mp (?_ : e ∈ stepsOf t i tr)).1
    rw [hsteps]
    exact List.mem_cons_of_mem _ (List.mem_append_left _ he)
  obtain rfl := Option.some.inj (hc.symm.trans hcall)
  cases hbody with
  | record hrecording =>
    rcases hrecording.stored_or_counted with hcount | ⟨slot, hstored⟩
    · exact absurd (hin _ hcount) hcounted
    · exact ⟨slot, hin _ hstored⟩

/-- **A call is counted** when all its probes met other keys, and once. -/
theorem Run.counted_iff (h : Run path limit call tr) {result : Option V} {c : Call K V}
    (hcall : call t i = some c) (hreturned : .returned t i result ∈ tr) :
    (probes (stepsOf t i tr)).map Prod.fst =
        (List.range (probes (stepsOf t i tr)).length).map (path c.key) ∧
      (stepsOf t i tr).countP Event.isCounted =
        if Unresolved limit c.key (probes (stepsOf t i tr)) then 1 else 0 := by
  obtain ⟨c', body, hc, hbody, hsteps⟩ := h.returned hreturned
  obtain rfl := Option.some.inj (hc.symm.trans hcall)
  have hprobing := hbody.probing
  have hprobes : probes (stepsOf t i tr) = probes body := by
    rw [hsteps]
    unfold probes
    rw [List.filterMap_cons_none rfl, List.filterMap_append]
    exact List.append_nil _
  have hcount : (stepsOf t i tr).countP Event.isCounted = body.countP Event.isCounted := by
    rw [hsteps, List.countP_cons, List.countP_append]
    rfl
  rw [hprobes, hcount, List.range_eq_range']
  refine ⟨hprobing.slots, hprobing.counted.trans ?_⟩
  rw [Nat.zero_add]
  rfl

/-! ### Threads -/

/-- The steps of a thread that makes some calls, the first of them number `i`. -/
inductive ThreadSteps (path : K → ℕ → σ) (limit : ℕ) (t : τ) :
    ℕ → List (Call K V) → List (Event τ K σ V) → Prop
  | done (i : ℕ) : ThreadSteps path limit t i [] []
  | call {i : ℕ} {c : Call K V} {calls : List (Call K V)} {body rest : List (Event τ K σ V)}
      {result : Option V} (hbody : CallSteps path limit t i c body result)
      (hrest : ThreadSteps path limit t (i + 1) calls rest) :
      ThreadSteps path limit t i (c :: calls)
        (.invoked t i :: (body ++ .returned t i result :: rest))

theorem ThreadSteps.tags {calls : List (Call K V)} {steps : List (Event τ K σ V)}
    (h : ThreadSteps path limit t i calls steps) :
    ∀ e ∈ steps, e.tag.1 = t ∧ i ≤ e.tag.2 := by
  induction h with
  | done => exact fun e he => absurd he List.not_mem_nil
  | @call i _ _ body _ _ hbody _ ih =>
    intro e he
    rcases List.mem_cons.mp he with rfl | he
    · exact ⟨rfl, Nat.le_refl _⟩
    rcases List.mem_append.mp he with he | he
    · rw [(hbody.inside e he).1]
      exact ⟨rfl, Nat.le_refl _⟩
    rcases List.mem_cons.mp he with rfl | he
    · exact ⟨rfl, Nat.le_refl _⟩
    · exact ⟨(ih e he).1, Nat.le_of_succ_le (ih e he).2⟩

/-- What a thread does for one call. -/
theorem ThreadSteps.block {calls : List (Call K V)} {steps : List (Event τ K σ V)} {first : ℕ}
    (h : ThreadSteps path limit t first calls steps) (i : ℕ) :
    stepsOf t i steps = [] ∨ ∃ c body result, first ≤ i ∧ calls[i - first]? = some c ∧
      CallSteps path limit t i c body result ∧
      stepsOf t i steps = .invoked t i :: (body ++ [.returned t i result]) := by
  induction h with
  | done => exact Or.inl rfl
  | @call first c calls body rest result hbody hrest ih =>
    by_cases hi : i = first
    · subst hi
      -- the other calls have greater numbers
      have hbodySteps : stepsOf t i body = body :=
        List.filter_eq_self.mpr fun e he => decide_eq_true (hbody.inside e he).1
      have hrestSteps : stepsOf t i rest = [] := by
        refine List.filter_eq_nil_iff.mpr fun e he htag => ?_
        have hle := (hrest.tags e he).2
        rw [of_decide_eq_true htag] at hle
        exact absurd hle (Nat.not_succ_le_self _)
      refine Or.inr ⟨c, body, result, Nat.le_refl _, ?_, hbody, ?_⟩
      · rw [Nat.sub_self]
        rfl
      · rw [stepsOf_cons (e := .invoked t i) rfl, stepsOf_append,
          stepsOf_cons (e := .returned t i result) rfl, hbodySteps, hrestSteps]
    · have hsteps : stepsOf t i (.invoked t first :: (body ++ .returned t first result :: rest)) =
          stepsOf t i rest := by
        have hother : ∀ e : Event τ K σ V, e.tag = (t, first) → ¬e.tag = (t, i) := by
          intro e he heq
          exact hi (Prod.mk.inj (he.symm.trans heq)).2.symm
        unfold stepsOf
        rw [List.filter_cons_of_neg (by simpa using hother (.invoked t first) rfl),
          List.filter_append, List.filter_eq_nil_iff.mpr fun e he htag =>
            hother e (hbody.inside e he).1 (of_decide_eq_true htag), List.nil_append,
          List.filter_cons_of_neg (by simpa using hother (.returned t first result) rfl)]
      rw [hsteps]
      rcases ih with hnil | ⟨c', body', result', hle, hc', hbody', hblock⟩
      · exact Or.inl hnil
      · refine Or.inr ⟨c', body', result', Nat.le_of_succ_le hle, ?_, hbody', hblock⟩
        rw [← hc', show i - first = i - (first + 1) + 1 by omega, List.getElem?_cons_succ]

/-- A history of threads that make their calls one after another. -/
theorem Run.of_threads {calls : τ → List (Call K V)} (hsound : Sound tr)
    (hthreads : ∀ t, ∃ steps, ThreadSteps path limit t 0 (calls t) steps ∧
      (tr.filter fun e => e.tag.1 = t) <+: steps) :
    Run path limit (fun t i => (calls t)[i]?) tr := by
  refine ⟨hsound, fun t i => ?_⟩
  obtain ⟨steps, hsteps, hpre⟩ := hthreads t
  have hown : stepsOf t i (tr.filter fun e => e.tag.1 = t) = stepsOf t i tr := by
    unfold stepsOf
    rw [List.filter_filter]
    refine List.filter_congr fun e _ => ?_
    by_cases htag : e.tag = (t, i)
    · simp [htag]
    · simp [htag]
  have hhere : stepsOf t i tr <+: stepsOf t i steps := hown ▸ hpre.filter _
  rcases hsteps.block i with hnil | ⟨c, body, result, -, hc, hbody, hblock⟩
  · rw [hnil] at hhere
    exact Or.inl (List.prefix_nil.mp hhere)
  · exact Or.inr ⟨c, body, result, hc, hbody, hblock ▸ hhere⟩

/-! ### Lookups -/

variable {between : List (Event τ K σ V)} {result : Option V}

/-- The steps of a lookup between its beginning and its end. -/
theorem Run.lookup_steps (h : Run path limit call tr)
    (htr : tr = before ++ .invoked t i :: (between ++ .returned t i result :: after))
    (hcall : call t i = some (.lookup key)) : ∃ body value, result = some value ∧
      Looking path limit t i key 0 body value ∧ ∀ e ∈ body, e ∈ between := by
  have hpre : before ++ .invoked t i :: (between ++ [.returned t i result]) <+: tr :=
    ⟨after, by rw [htr]; simp⟩
  have hreturned : .returned t i result ∈ before ++ .invoked t i :: (between ++
      [Event.returned t i result]) := by
    simp
  obtain ⟨c, body, hc, hbody, hsteps⟩ := (h.of_prefix hpre).returned hreturned
  obtain rfl := Option.some.inj (hc.symm.trans hcall)
  have hsplit : stepsOf t i before ++ .invoked t i :: (stepsOf t i between ++
      [.returned t i result]) = .invoked t i :: (body ++ [.returned t i result]) := by
    rw [← hsteps, stepsOf_append, stepsOf_cons (e := .invoked t i) rfl, stepsOf_append,
      stepsOf_cons (e := .returned t i result) rfl]
    rfl
  -- a call begins once
  have hnil : stepsOf t i before = [] := by
    cases hx : stepsOf t i before with
    | nil => rfl
    | cons first x =>
      rw [hx] at hsplit
      have htail := (List.cons.inj hsplit).2
      have hin : .invoked t i ∈ body ++ [.returned t i result] := by
        rw [← htail]
        exact List.mem_append_right _ List.mem_cons_self
      rcases List.mem_append.mp hin with hin | hin
      · exact absurd rfl (hbody.inside _ hin).2.1
      · cases List.mem_singleton.mp hin
  rw [hnil, List.nil_append] at hsplit
  have hbetween := List.append_cancel_right (List.cons.inj hsplit).2
  cases hbody with
  | @lookup _ value _ hlooking =>
    refine ⟨body, value, rfl, hlooking, fun e he => ?_⟩
    rw [← hbetween] at he
    exact (mem_stepsOf.mp he).1

/-- **A lookup finds what was recorded**: once a call has recorded a key, a lookup while no
call that records this key is in progress returns the value stored last. -/
theorem Run.lookup_recorded (h : Run path limit call tr)
    (hcalls : ∀ t i c, call t i = some c → c.key ≠ 0)
    (htr : tr = before ++ .invoked t i :: (between ++ .returned t i result :: after))
    (hcall : call t i = some (.lookup key)) {t' : τ} {i' : ℕ} {result' : Option V}
    (hrecord : call t' i' = some (.record key value))
    (hreturned : .returned t' i' result' ∈ before) (hcounted : .counted t' i' ∉ before)
    (hquiet : ∀ t i value, call t i = some (.record key value) →
      .invoked t i ∈ before ++ between → ∃ result, .returned t i result ∈ before) :
    ∃ slot value, keyAt before slot = key ∧
      (before.filterMap (Event.stored? slot)).getLast? = some value ∧ result = some value := by
  have hne : key ≠ 0 := hcalls t i _ hcall
  have hbefore : Run path limit call before := h.of_prefix (htr ▸ List.prefix_append _ _)
  -- where the key is
  obtain ⟨slot, hstored⟩ := hbefore.recorded hrecord hreturned hcounted
  obtain ⟨a, b, hab⟩ := List.append_of_mem hstored
  have hkey : keyAt before slot = key := by
    obtain ⟨key', hc, hthere, -⟩ := hbefore.stored hab
    obtain ⟨rfl, -⟩ := Call.record.inj (Option.some.inj (hc.symm.trans hrecord))
    rw [hbefore.key_mono (hab ▸ List.prefix_append _ _) (by rw [hthere hne]; exact hne),
      hthere hne]
  obtain ⟨⟨k, hk, hslot, hbehind⟩, -⟩ := hbefore.key_path hne hkey
  obtain ⟨body, value', rfl, hlooking, hbody⟩ := h.lookup_steps htr hcall
  -- any moment of the lookup
  have hmoment : ∀ e ∈ body, ∃ x y, between = x ++ e :: y ∧
      tr = (before ++ .invoked t i :: x) ++ e :: (y ++ .returned t i (some value') :: after) := by
    intro e he
    obtain ⟨x, y, hxy⟩ := List.append_of_mem (hbody e he)
    exact ⟨x, y, hxy, by rw [htr, hxy]; simp⟩
  have hloaded : .loaded t i (path key k) value' ∈ body := by
    refine hlooking.finds (Nat.zero_le k) hk fun e he s found hprobe => ?_
    obtain ⟨x, y, -, hxy⟩ := hmoment e he
    have hnow : Run path limit call (before ++ .invoked t i :: x) :=
      h.of_prefix (hxy ▸ List.prefix_append _ _)
    have hfound : found = keyAt (before ++ .invoked t i :: x) s := by
      have hfits := h.sound _ e _ hxy
      cases e with
      | probed | exchanged =>
        cases hprobe
        exact hfits
      | _ => cases hprobe
    have hstays : ∀ s, keyAt before s ≠ 0 → keyAt (before ++ .invoked t i :: x) s =
        keyAt before s := fun s hs => hnow.key_mono (List.prefix_append _ _) hs
    refine ⟨?_, fun m hm => ?_⟩
    · rintro rfl
      rw [hfound, hstays _ (by rw [← hslot, hkey]; exact hne), ← hslot, hkey]
    · rintro rfl
      rw [hfound, hstays _ (hbehind m hm).1]
      exact hbehind m hm
  rw [← hslot] at hloaded
  obtain ⟨x, y, hbetween, hxy⟩ := hmoment _ hloaded
  have hvalue : value' = valueAt (before ++ .invoked t i :: x) slot := h.sound _ _ _ hxy
  -- nobody stores there meanwhile
  have hquiet' : ∀ t₁ i₁ value₁, (Event.stored t₁ i₁ slot value₁ : Event τ K σ V) ∉
      .invoked t i :: x := by
    intro t₁ i₁ value₁ hmem
    obtain ⟨u, v, huv⟩ := List.append_of_mem hmem
    have hat : tr = (before ++ u) ++ .stored t₁ i₁ slot value₁ ::
        (v ++ .loaded t i slot value' :: (y ++ .returned t i (some value') :: after)) := by
      rw [hxy, huv]
      simp
    obtain ⟨key₁, hc₁, hkey₁, hinvoked, hopen⟩ := h.stored hat
    have hnow : Run path limit call (before ++ u) := h.of_prefix (hat ▸ List.prefix_append _ _)
    have hsame : keyAt (before ++ u) slot = key := by
      rw [hnow.key_mono (List.prefix_append _ _) (by rw [hkey]; exact hne), hkey]
    obtain rfl : key₁ = key := (hkey₁ (hcalls _ _ _ hc₁)).symm.trans hsame
    have hbegun : .invoked t₁ i₁ ∈ before ++ between := by
      rcases List.mem_append.mp hinvoked with hin | hin
      · exact List.mem_append_left _ hin
      · have hin' : .invoked t₁ i₁ ∈ Event.invoked t i :: x :=
          huv ▸ List.mem_append_left _ hin
        rcases List.mem_cons.mp hin' with heq | hx
        · cases heq
          cases hc₁.symm.trans hcall
        · exact List.mem_append_right _ (hbetween ▸ List.mem_append_left _ hx)
    obtain ⟨result₁, hended⟩ := hquiet t₁ i₁ value₁ hc₁ hbegun
    exact hopen result₁ (List.mem_append_left _ hended)
  have hlast : (before.filterMap (Event.stored? slot)).getLast? = some (valueAt before slot) := by
    have hne' : before.filterMap (Event.stored? slot) ≠ [] :=
      List.ne_nil_of_mem (List.mem_filterMap.mpr
        ⟨_, hstored, Event.stored?_eq_some.mpr ⟨t', i', rfl⟩⟩)
    unfold valueAt
    rw [List.getLastD_eq_getLast?, List.getLast?_eq_some_getLast hne', Option.getD_some]
  exact ⟨slot, _, hkey, hlast, by rw [hvalue, valueAt_append hquiet']⟩

/-- **A key that was never recorded** is not found. -/
theorem Run.lookup_unrecorded (h : Run path limit call tr) (hne : key ≠ 0)
    (htr : tr = before ++ .invoked t i :: (between ++ .returned t i result :: after))
    (hcall : call t i = some (.lookup key))
    (hnever : ∀ t i value, call t i = some (.record key value) →
      .invoked t i ∉ before ++ between) : result = some 0 := by
  obtain ⟨body, value, rfl, hlooking, hbody⟩ := h.lookup_steps htr hcall
  refine congrArg some (hlooking.misses fun e he slot found hprobe heq => ?_)
  subst heq
  obtain ⟨x, y, hxy⟩ := List.append_of_mem (hbody e he)
  have hpre : before ++ .invoked t i :: (x ++ [e]) <+: tr :=
    ⟨y ++ .returned t i (some value) :: after, by rw [htr, hxy]; simp⟩
  have hnow := h.of_prefix hpre
  have hkey := hnow.sound.met (by simp) hprobe hne
  obtain ⟨-, t', i', value', hc, hinvoked⟩ := hnow.key_path hne hkey
  refine hnever t' i' value' hc ?_
  rcases List.mem_append.mp hinvoked with hin | hin
  · exact List.mem_append_left _ hin
  · rcases List.mem_cons.mp hin with heq | hin
    · cases heq
      cases hc.symm.trans hcall
    · refine List.mem_append_right _ (hxy ▸ ?_)
      rw [List.append_cons]
      exact List.mem_append_left _ hin

end Runs

end ProbeTable
