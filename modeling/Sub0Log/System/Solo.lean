import Sub0Log.System.Ledger

/-!
# One more emit

What a single emit does is asked of every state a run can leave a thread in, with other
threads stopped anywhere. `OneMore` is that situation: thread `t` has returned from all its
calls, makes one more emit, and only it takes steps until it is back.

The contract of `emitRecord` is proved for the calls of a setting, so the setting is
extended by the one call (`OneMore.setting`); the state reached so far satisfies its
invariant as well (`extended_inv`). `OneMore.message_deeds` is what comes out when the site
is announced.
-/

open Bytes Interleaving

namespace Sub0Log.System

open Wire Reader Producer

variable {τ : Type} [DecidableEq τ] {lg : Logger τ}

/-- Thread `t` makes one more emit, alone, from a state of a run in which it is done. -/
structure OneMore (L : Launch lg) (calls : τ → List (Call lg)) (t : τ) (e : Emit)
    (p p' : Pool Op.Answer τ (State τ) Unit) : Prop where
  run : Reachable (sem lg) (L.pool calls) p
  idle : p.prog t = .ret ()
  typed : lg.Typed e
  alone : ReachableBy (sem lg) t ⟨p.shared, Function.update p.prog t (lg.emitRecord e)⟩ p'
  returned : p'.prog t = .ret ()

/-- The events of a step are its thread's. -/
theorem trace_own {t : τ} {op : Op} {s s' : State τ} {r : op.Answer} (h : sem lg t op s r s') :
    ∃ new, s'.trace = s.trace ++ new ∧ ∀ e ∈ new, Event.thread e = t := by
  have hnone : s'.trace = s.trace → ∃ new, s'.trace = s.trace ++ new ∧
      ∀ e ∈ new, Event.thread e = t := fun heq =>
    ⟨[], by rw [heq, List.append_nil], fun e he => by cases he⟩
  have hpublication : ∀ a w, ∀ e ∈ publication t a w, Event.thread e = t := by
    intro a w e he
    cases w with
    | none => cases he
    | some w => rw [List.mem_singleton.mp he]; rfl
  cases op with
  | claimChunkIndex =>
    have hs : s' = (claimChunkIndex lg t s).2 := congrArg Prod.snd h
    subst hs
    unfold claimChunkIndex
    split
    · exact ⟨_, rfl, fun e he => by rw [List.mem_singleton.mp he]; rfl⟩
    · split <;> exact ⟨[], (List.append_nil _).symm, fun e he => by cases he⟩
  | loadKey | currentThreadId | loadCache | copyOrder =>
    exact hnone (by rw [(show s' = s from h.2)])
  | monotonicNow => exact hnone (by rw [(show s' = s from h)])
  | storeKey | storeCache | storeByte | storeLow32 =>
    exact hnone (by rw [(show s' = _ from h)])
  | store64 a word w =>
    obtain rfl : s' = _ := h
    exact ⟨_, rfl, hpublication _ _⟩
  | storeHigh32 a half w =>
    obtain rfl : s' = _ := h
    exact ⟨_, rfl, hpublication _ _⟩
  | countDrop emit =>
    obtain rfl : s' = _ := h
    exact ⟨_, rfl, fun e he => by rw [List.mem_singleton.mp he]; rfl⟩
  | countTruncation =>
    obtain rfl : s' = _ := h
    exact ⟨_, rfl, fun e he => by rw [List.mem_singleton.mp he]; rfl⟩

/-- What a thread that runs alone adds to the trace is its own. -/
theorem trace_alone {t : τ} {p p' : Pool Op.Answer τ (State τ) Unit}
    (h : ReachableBy (sem lg) t p p') :
    ∃ new, p'.shared.trace = p.shared.trace ++ new ∧ ∀ e ∈ new, Event.thread e = t := by
  induction h with
  | refl => exact ⟨[], (List.append_nil _).symm, fun e he => by cases he⟩
  | tail _ hstep ih =>
    obtain ⟨new, htrace, hown⟩ := ih
    cases hstep with
    | op hprog hsem =>
      obtain ⟨new', htrace', hown'⟩ := trace_own hsem
      refine ⟨new ++ new', by rw [htrace', htrace, List.append_assoc], fun e he => ?_⟩
      rcases List.mem_append.mp he with hold | hnew
      · exact hown e hold
      · exact hown' e hnew

/-- The calls with one more emit of thread `t`. -/
def extendedCalls (calls : τ → List (Call lg)) (t : τ) (e : Emit) (typed : lg.Typed e) :
    τ → List (Call lg) :=
  Function.update calls t (calls t ++ [.emit e typed])

section Extended

variable {calls : τ → List (Call lg)} {t : τ} {e : Emit} {typed : lg.Typed e}

theorem mem_extendedCalls {t' : τ} {c : Call lg} :
    c ∈ extendedCalls calls t e typed t' ↔ c ∈ calls t' ∨ (t' = t ∧ c = .emit e typed) := by
  unfold extendedCalls
  by_cases heq : t' = t
  · subst heq
    rw [Function.update_self, List.mem_append, List.mem_singleton]
    simp
  · rw [Function.update_of_ne heq]
    simp [heq]

theorem emits_extendedCalls (t' : τ) :
    (calls t').filterMap Call.emit? <+: (extendedCalls calls t e typed t').filterMap Call.emit? := by
  unfold extendedCalls
  by_cases heq : t' = t
  · subst heq
    rw [Function.update_self, List.filterMap_append]
    exact List.prefix_append _ _
  · rw [Function.update_of_ne heq]

variable (L : Launch lg)

/-- An emit defines no site of its own. -/
theorem extended_oneDefinition :
    (L.setting (extendedCalls calls t e typed)).OneDefinition ↔ (L.setting calls).OneDefinition := by
  constructor
  · exact fun h t' d hd => h t' d (mem_extendedCalls.mpr (Or.inl hd))
  · intro h t' d hd
    rcases mem_extendedCalls.mp hd with hold | ⟨-, hnew⟩
    · exact h t' d hold
    · cases hnew

theorem extended_onlyEmits (h : (L.setting (extendedCalls calls t e typed)).OnlyEmits) :
    (L.setting calls).OnlyEmits :=
  fun t' c hc => h t' c (mem_extendedCalls.mpr (Or.inl hc))

/-- A state of the run is one of the longer run. -/
theorem extended_inv {s : State τ} (h : (L.setting calls).Inv s) :
    (L.setting (extendedCalls calls t e typed)).Inv s := by
  obtain ⟨hlayout, hnaming, hcounting⟩ := h
  refine ⟨⟨hlayout.headed, hlayout.unclaimed, hlayout.claimed, hlayout.exclusive, hlayout.shows,
      hlayout.placed, hlayout.ordered⟩, ⟨?expected, hnaming.defined, hnaming.announced⟩,
    ⟨?follows, ?noted, hcounting.dropped, hcounting.truncated⟩⟩
  case expected =>
    intro t' a w hmem
    have hold := hnaming.expected t' a w hmem
    cases w with
    | message m => exact hold
    | definition d => exact fun hone => hold ((extended_oneDefinition L).mp hone)
    | subsystem id name => exact fun honly => hold (extended_onlyEmits L honly)
  case follows =>
    intro t'
    obtain ⟨done, hprefix, hall⟩ := hcounting.follows t'
    exact ⟨done, hprefix.trans (emits_extendedCalls t'), hall⟩
  case noted => exact fun honly => hcounting.noted (extended_onlyEmits L honly)

end Extended

namespace OneMore

variable {L : Launch lg} {calls : τ → List (Call lg)} {t : τ} {e : Emit}
  {p p' : Pool Op.Answer τ (State τ) Unit}

/-- The setting with the one more call. -/
def setting (h : OneMore L calls t e p p') : Setting τ :=
  L.setting (extendedCalls calls t e h.typed)

/-- Before the emit the thread is idle, and its last call is still to be accounted for. -/
theorem before (h : OneMore L calls t e p p') :
    h.setting.Inv p.shared ∧ ∃ hist, h.setting.Idle t hist p.shared ∧
      h.setting.Awaits t hist e := by
  obtain ⟨hinv, hwp⟩ := Launch.reachable h.run
  have hreturned := hwp t
  rw [h.idle] at hreturned
  obtain ⟨hist, hdid, hidle⟩ := hreturned
  refine ⟨extended_inv L hinv, hist, ⟨⟨hidle.hist, hidle.quiet⟩, hidle.cache⟩, fun o ho => ?_⟩
  refine ⟨(calls t).filterMap Call.emit? ++ [e], ?_, List.rel_append hdid (.cons ho .nil)⟩
  show _ <+: (extendedCalls calls t e h.typed t).filterMap Call.emit?
  unfold extendedCalls
  rw [Function.update_self, List.filterMap_append]
  exact List.prefix_rfl

/-- After the emit: what the contract of `emitRecord` says. -/
theorem after (h : OneMore L calls t e p p') {P : State τ → Prop} {Q : Unit → State τ → Prop}
    (hP : P p.shared) (hmeets : h.setting.Meets t P (lg.emitRecord e) Q) :
    h.setting.Inv p'.shared ∧ Q () p'.shared := by
  obtain ⟨hinv, -⟩ := h.before
  have hwp := hmeets p.shared hinv hP
  have hstart : (Function.update p.prog t (lg.emitRecord e)) t = lg.emitRecord e :=
    Function.update_self _ _ _
  rw [← hstart] at hwp
  obtain ⟨-, hpost⟩ := Spec.solo
    (p := ⟨p.shared, Function.update p.prog t (lg.emitRecord e)⟩) hinv hwp h.alone
  rw [h.returned] at hpost
  exact hpost

/-- **One emit at an announced site** is one Message or one drop, and what it adds to the
trace is that, claims apart. -/
theorem message_deeds (h : OneMore L calls t e p p')
    (hkey : p.shared.keys e.site = lg.segment.announceKey) :
    h.setting.Inv p'.shared ∧ ∃ new events, p'.shared.trace = p.shared.trace ++ events ∧
      (∀ x ∈ events, Event.thread x = t) ∧ deeds events = new ∧ MessageDeeds lg t e new := by
  obtain ⟨-, hist, hidle, hawaits⟩ := h.before
  obtain ⟨hinv', hist', new, ⟨hdeeds, hmessage⟩, hidle'⟩ := h.after ⟨hidle, hkey⟩
    (Setting.emitRecord_announced (S := h.setting) h.typed hawaits)
  obtain ⟨events, htrace, hown⟩ := trace_alone h.alone
  refine ⟨hinv', new, events, htrace, hown, ?_, hmessage⟩
  -- the thread's history grew by the same events
  have hhist : p'.shared.hist t = p.shared.hist t ++ events := by
    unfold State.hist
    rw [htrace, List.filter_append, List.filter_eq_self.mpr fun x hx => decide_eq_true (hown x hx)]
  rw [hidle'.hist, hidle.hist] at hhist
  rw [hhist, deeds_append] at hdeeds
  exact List.append_cancel_left hdeeds

end OneMore

end Sub0Log.System
