import SystemProgramming.Rwlock.Exclusion

/-!
# Rejected unlocks

An unlock function tells from its counter that nothing of its kind is held and returns -1, after it has
decremented the counter.  Runs whose only misuse is such calls are compared with runs of correct
threads: the call changes what later sections see, so the two kinds of run behave alike only as long
as no call is rejected.

* `rejected_counts`: the counter is off after every unlock that is rejected.
* `rwlock_rejected_unlock`: when rejected unlocks are harmless.
* `rwlock_rejected_unlock_fails`: a writer beside a reader.
-/

namespace SystemProgramming.Rwlock

open Function

variable {Θ : Type} [DecidableEq Θ] {ring : Ring} {s s' s₁ s₂ : State Θ} {e : Event Θ} {t : Θ}
  {tr : List (Event Θ)}

/-- A call of an unlock function that returns -1. -/
def Event.Rejected (e : Event Θ) : Prop :=
  (e.action = .readUnlock ∨ e.action = .writeUnlock) ∧ e.result = some (-1)

/-- A thread unlocks only what it has been granted, or its call returns -1. -/
def OnlyRejected (s : State Θ) (e : Event Θ) (s' : State Θ) : Prop := Correct s e s' ∨ e.Rejected

/-- Threads whose only misuse of the lock is unlock calls that return -1. -/
def misuseSys (ring : Ring) (Θ : Type) [DecidableEq Θ] : Sys (State Θ) (Event Θ) :=
  (lockSys ring Θ).restrict OnlyRejected

/-- Nobody holds a lock of the kind that the action gives back. -/
def NothingHeld (s : State Θ) : Action → Prop
  | .readUnlock => ∀ t, (s.threads t).reads = 0
  | .writeUnlock => ∀ t, (s.threads t).writes = 0
  | .call _ => False
  | .wake _ => False

/-- What may still happen, with every result: the runs that start in `s`. -/
def futures (ring : Ring) (s : State Θ) : Set (List (Event Θ)) :=
  { tr | ∃ s', Reach ⟨fun s₀ => s₀ = s, Step ring⟩ tr s' }

/-- `s'` is to later calls what `s` is: the counters and everything that may be granted. -/
structure AsIfNotMade (ring : Ring) (s s' : State Θ) : Prop where
  readers : s'.lock.currentReaders = s.lock.currentReaders
  writers : s'.lock.currentWriters = s.lock.currentWriters
  grants : futures ring s' = futures ring s

/-- A writer holds the lock alone. -/
structure Exclusive (s : State Θ) : Prop where
  once : ∀ t, (s.threads t).writes ≤ 1
  alone : ∀ t t', 0 < (s.threads t).writes → 0 < (s.threads t').writes → t = t'
  noReader : ∀ t, 0 < (s.threads t).writes → ∀ t', (s.threads t').reads = 0

/-- No rejected unlock of a run has an effect. -/
def RejectedHarmless (ring : Ring) (tr : List (Event Θ)) : Prop :=
  ∀ tr₁ e tr₂ s₁ s₂, tr = tr₁ ++ e :: tr₂ → Reach (misuseSys ring Θ) tr₁ s₁ → Step ring s₁ e s₂ →
    e.Rejected → NothingHeld s₁ e.action → AsIfNotMade ring s₁ s₂

/-- In no state of a run does a writer hold the lock together with another holder. -/
def AlwaysExclusive (ring : Ring) (tr : List (Event Θ)) : Prop :=
  ∀ tr₁ tr₂ s₁, tr = tr₁ ++ tr₂ → Reach (misuseSys ring Θ) tr₁ s₁ → Exclusive s₁

/-! ### Runs are determined by their events -/

theorem step_unique (h₁ : Step ring s e s₁) (h₂ : Step ring s e s₂) : s₁ = s₂ := by
  cases h₁ with
  | call hfree hpc =>
    generalize he : Event.mk _ _ _ = e at h₂
    cases h₂ with
    | call _ _ => cases he; rfl
    | wake _ _ => cases he
    | readUnlock _ _ => cases he
    | writeUnlock _ _ => cases he
  | wake hfree hpc =>
    generalize he : Event.mk _ _ _ = e at h₂
    cases h₂ with
    | call _ _ => cases he
    | wake hfree' hpc' =>
      obtain ⟨rfl, -, -⟩ := Event.mk.inj he
      rw [hpc] at hpc'
      cases hpc'
      rfl
    | readUnlock _ _ => cases he
    | writeUnlock _ _ => cases he
  | readUnlock hfree hpc =>
    generalize he : Event.mk _ _ _ = e at h₂
    cases h₂ with
    | call _ _ => cases he
    | wake _ _ => cases he
    | readUnlock _ _ => cases he; rfl
    | writeUnlock _ _ => cases he
  | writeUnlock hfree hpc =>
    generalize he : Event.mk _ _ _ = e at h₂
    cases h₂ with
    | call _ _ => cases he
    | wake _ _ => cases he
    | readUnlock _ _ => cases he
    | writeUnlock _ _ => cases he; rfl

theorem misuse_unique (h₁ : Reach (misuseSys ring Θ) tr s₁) (h₂ : Reach (misuseSys ring Θ) tr s₂) :
    s₁ = s₂ := by
  apply h₁.unique _ _ h₂
  · intro s s' hs hs'
    exact (show s = State.init from hs).trans (show s' = State.init from hs').symm
  · exact fun s e s₁ s₂ hs₁ hs₂ => step_unique hs₁.1 hs₂.1

theorem misuse_step (h : (correctSys ring Θ).step s e s') : (misuseSys ring Θ).step s e s' :=
  ⟨h.1, Or.inl h.2⟩

theorem misuse_of_correct (h : Reach (correctSys ring Θ) tr s) : Reach (misuseSys ring Θ) tr s :=
  h.weaken fun _ _ _ hc => Or.inl hc

/-! ### What a rejected unlock does -/

/-- **The counter is off** after every unlock that is rejected. -/
theorem rejected_counts (hstep : Step ring s e s') (h : e.Rejected) :
    s'.lock.currentReaders ≠ s.lock.currentReaders ∨
      s'.lock.currentWriters ≠ s.lock.currentWriters := by
  cases hstep with
  | call _ _ => obtain ⟨hact | hact, -⟩ := h <;> cases hact
  | wake _ _ => obtain ⟨hact | hact, -⟩ := h <;> cases hact
  | readUnlock _ _ =>
    have hcounts := readUnlock_counts s.lock
    refine Or.inl ?_
    show (rwlockReadUnlock s.lock).lock.currentReaders ≠ _
    omega
  | writeUnlock _ _ =>
    have hcounts := writeUnlock_counts s.lock
    refine Or.inr ?_
    show (rwlockWriteUnlock s.lock).lock.currentWriters ≠ _
    omega

theorem not_asIfNotMade (hstep : Step ring s e s') (h : e.Rejected) : ¬ AsIfNotMade ring s s' := by
  intro hsame
  rcases rejected_counts hstep h with hne | hne
  · exact hne hsame.readers
  · exact hne hsame.writers

/-- At most one writer is counted after any loop body. -/
theorem body_writers_le {u : Lock} (h : u.currentWriters ≤ 1) (w : Waiter) :
    (w.body ring u).lock.currentWriters ≤ 1 := by
  cases w with
  | quick =>
    show (quickBody u).lock.currentWriters ≤ 1
    unfold quickBody
    split <;> exact h
  | read n =>
    show (readBody ring u n).lock.currentWriters ≤ 1
    have hfinish : ∀ {v : Lock} {granted : Lock → Section}, v.currentWriters ≤ 1 →
        (∀ v', (granted v').lock = v') → (finishGrant ring v n granted).lock.currentWriters ≤ 1 := by
      intro v granted hv hgranted
      cases hm : slotMatches ring v n none with
      | true =>
        rw [finishGrant_of_match hm, hgranted]
        exact hv
      | false =>
        rw [finishGrant_of_miss hm]
        exact hv
    rcases readBody_cases ring u n with
      ⟨-, hb⟩ | ⟨-, -, hb⟩ | ⟨-, -, ⟨-, hb⟩ | ⟨-, -, -, hb⟩ | ⟨-, -, hb⟩⟩
    · rw [hb]
      exact h
    · rw [hb]
      exact hfinish h fun _ => rfl
    · rw [hb]
      exact h
    · rw [hb]
      exact hfinish h fun _ => rfl
    · rw [hb]
      exact h
  | write n =>
    show (writeBody ring u n).lock.currentWriters ≤ 1
    rcases writeBody_cases ring u n with ⟨-, hb⟩ | ⟨-, -, -, ⟨-, hb⟩ | ⟨-, -, -, hb⟩ | ⟨-, -, hb⟩⟩
    · rw [hb]
      exact h
    · rw [hb]
      exact h
    · rw [hb]
      cases hm : slotMatches ring { u with oldestElement := n, currentWriters := 1 } n none with
      | true =>
        rw [finishGrant_of_match hm]
        exact Int.le_refl 1
      | false =>
        rw [finishGrant_of_miss hm]
    · rw [hb]
      exact h

/-- Correct threads count at most one writer. -/
theorem writers_le_one (h : Reach (correctSys ring Θ) tr s) : s.lock.currentWriters ≤ 1 := by
  have h' := h.restrict (P := fun _ _ _ => True) fun _ _ _ _ => trivial
  refine invariant_of_steps (I := fun s => s.lock.currentWriters ≤ 1) ?_ ?_ ?_ ?_ ?_ ?_ h'
  · exact Int.le_of_lt Int.one_pos
  · intro s t hI _ _ _
    exact hI
  · intro s t c hI _ _ _
    exact body_writers_le (((join_counts ring s.lock c).2).trans_le hI) _
  · intro s t w _ hI _ _ _
    exact body_writers_le hI w
  · intro s t _ _ hI _ _ _ _
    exact ((readUnlock_counts s.lock).2).trans_le hI
  · intro s t hI _ _ _
    have hcounts := (writeUnlock_counts s.lock).2
    show (rwlockWriteUnlock s.lock).lock.currentWriters ≤ 1
    omega

section Runs

variable [Fintype Θ]

omit [DecidableEq Θ] in
theorem Covered.exclusiveHolders (h : Covered s) : Exclusive s where
  once t := (writes_le s t).trans h.one
  alone t t' ht ht' := by
    classical
    by_contra hne
    have hwrites := h.alone ht (Ne.symm hne)
    omega
  noReader t ht t' := h.no_reader ht t'

/-- After a run of correct threads, an unlock is rejected only when nothing of its kind is held. -/
theorem nothingHeld_of_rejected (h : Reach (correctSys ring Θ) tr s) (hstep : Step ring s e s')
    (he : e.Rejected) : NothingHeld s e.action := by
  have hcovered := Covered.of_reach h
  have hone := writers_le_one h
  obtain ⟨hreaders, hwriters, -, -⟩ := hcovered
  cases hstep with
  | call _ _ => obtain ⟨hact | hact, -⟩ := he <;> cases hact
  | wake _ _ => obtain ⟨hact | hact, -⟩ := he <;> cases hact
  | readUnlock _ _ =>
    intro t
    have hle := reads_le s t
    obtain ⟨-, hres⟩ := he
    have hres' : (rwlockReadUnlock s.lock).exit.result = some (-1) := hres
    have hneg : s.lock.currentReaders - 1 < 0 := by
      by_contra hpos
      simp only [rwlockReadUnlock, if_neg hpos] at hres'
      split at hres' <;> cases hres'
    omega
  | writeUnlock _ _ =>
    intro t
    have hle := writes_le s t
    obtain ⟨-, hres⟩ := he
    have hres' : (rwlockWriteUnlock s.lock).exit.result = some (-1) := hres
    have hneg : s.lock.currentWriters - 1 > 0 ∨ s.lock.currentWriters - 1 < 0 := by
      by_contra hzero
      simp only [rwlockWriteUnlock, if_neg hzero] at hres'
      cases hres'
    omega

omit [DecidableEq Θ] [Fintype Θ] in
/-- A thread that holds what it gives back shows that something is held. -/
theorem not_nothingHeld (hc : Correct s e s') (he : e.Rejected) : ¬ NothingHeld s e.action := by
  obtain ⟨t, a, r⟩ := e
  obtain ⟨hact | hact, -⟩ := he
  · obtain rfl : a = .readUnlock := hact
    intro hnone
    have hzero := hnone t
    have hpos : 0 < (s.threads t).reads := hc
    omega
  · obtain rfl : a = .writeUnlock := hact
    intro hnone
    have hzero := hnone t
    have hpos : 0 < (s.threads t).writes := hc
    omega

/-- A run in which every rejected unlock is harmless has none. -/
theorem correct_of_harmless (h : Reach (misuseSys ring Θ) tr s) (hharmless : RejectedHarmless ring tr) :
    Reach (correctSys ring Θ) tr s := by
  induction h with
  | init hs => exact Reach.init hs
  | @step tr s s' e hr hs ih =>
    have hbefore : RejectedHarmless ring tr := by
      intro tr₁ e₁ tr₂ s₁ s₂ htr
      apply hharmless tr₁ e₁ (tr₂ ++ [e]) s₁ s₂
      rw [htr, List.append_assoc]
      rfl
    have hcorrect := ih hbefore
    refine hcorrect.step ⟨hs.1, ?_⟩
    by_contra hnot
    have hrejected : e.Rejected := hs.2.resolve_left hnot
    have hheld := nothingHeld_of_rejected hcorrect hs.1 hrejected
    exact not_asIfNotMade hs.1 hrejected (hharmless tr e [] s s' rfl hr hs.1 hrejected hheld)

omit [Fintype Θ] in
theorem harmless_of_correct (h : Reach (correctSys ring Θ) tr s) : RejectedHarmless ring tr := by
  intro tr₁ e tr₂ s₁ s₂ htr hr _ hrejected hheld
  rw [htr] at h
  obtain ⟨t₁, t₂, ht₁, hstep⟩ := h.at_event
  obtain rfl := misuse_unique hr (misuse_of_correct ht₁)
  exact absurd hheld (not_nothingHeld hstep.2 hrejected)

theorem exclusive_of_correct (h : Reach (correctSys ring Θ) tr s) : AlwaysExclusive ring tr := by
  intro tr₁ tr₂ s₁ htr hr
  rw [htr] at h
  obtain ⟨t₁, ht₁⟩ := h.upTo
  obtain rfl := misuse_unique hr (misuse_of_correct ht₁)
  exact (Covered.of_reach ht₁).exclusiveHolders

/-- **When rejected unlocks are harmless.**  A rejected unlock never is, whatever has been done with the
lock.  So in a run whose only misuse is unlock calls that return -1, no such call has an effect and the
writers hold the lock alone, exactly when the run has no misuse: every unlock is by a thread that
holds what it gives back. -/
theorem rwlock_rejected_unlock (ring : Ring) (Θ : Type) [DecidableEq Θ] [Fintype Θ] :
    (∀ (tr : List (Event Θ)) (s s' : State Θ) (e : Event Θ), Reach (lockSys ring Θ) tr s →
      Step ring s e s' → e.Rejected → NothingHeld s e.action → ¬ AsIfNotMade ring s s') ∧
    ∀ (tr : List (Event Θ)) (s : State Θ), Reach (misuseSys ring Θ) tr s →
      ((RejectedHarmless ring tr ∧ AlwaysExclusive ring tr) ↔ Reach (correctSys ring Θ) tr s) := by
  constructor
  · intro tr s s' e _ hstep hrejected _ hsame
    exact not_asIfNotMade hstep hrejected hsame
  · intro tr s h
    exact ⟨fun hboth => correct_of_harmless h hboth.1, fun hcorrect =>
      ⟨harmless_of_correct hcorrect, exclusive_of_correct hcorrect⟩⟩

/-- The theorem at a rejected call, and at a run in which nothing is misused. -/
theorem rwlock_rejected_unlock_reader :
    (¬ AsIfNotMade (Ring.plain 1 (by decide)) (State.init : State (Fin 1))
      ((State.init : State (Fin 1)).releaseRead 0)) ∧
    ∃ tr, ∃ s : State (Fin 1), tr.length = 2 ∧
      ((RejectedHarmless (Ring.plain 1 (by decide)) tr ∧
        AlwaysExclusive (Ring.plain 1 (by decide)) tr) ↔
          Reach (correctSys (Ring.plain 1 (by decide)) (Fin 1)) tr s) := by
  constructor
  · have hinit : Reach (lockSys (Ring.plain 1 (by decide)) (Fin 1)) [] State.init := Reach.init rfl
    exact (rwlock_rejected_unlock _ _).1 [] State.init _ ⟨0, .readUnlock, some (-1)⟩ hinit
      (Step.readUnlock rfl rfl) ⟨Or.inl rfl, rfl⟩ fun _ => rfl
  · obtain ⟨⟨tr, s⟩, hplay⟩ := Option.isSome_iff_exists.mp
      (show (play (Ring.plain 1 (by decide)) [] (State.init : State (Fin 1))
        [(0, .call .read), (0, .readUnlock)]).isSome = true by decide +kernel)
    have hlen : (play (Ring.plain 1 (by decide)) [] (State.init : State (Fin 1))
        [(0, .call .read), (0, .readUnlock)]).map (fun q => q.1.length) = some 2 := by decide +kernel
    rw [hplay] at hlen
    have hinit : Reach (correctSys (Ring.plain 1 (by decide)) (Fin 1)) [] State.init := Reach.init rfl
    exact ⟨tr, s, Option.some.inj hlen,
      (rwlock_rejected_unlock _ _).2 tr s (misuse_of_correct (reach_of_play hinit hplay))⟩

end Runs

/-- **A writer beside a reader.**  A thread unlocks what nobody holds and is told so; the next reader
then counts as none, and a writer gets in while it reads. -/
theorem rwlock_rejected_unlock_fails : ∃ tr, ∃ s : State (Fin 2),
    Reach (misuseSys (Ring.plain 2 (by decide)) (Fin 2)) tr s ∧
      (s.threads 0).reads = 1 ∧ (s.threads 1).writes = 1 := by
  have hinit : Reach (misuseSys (Ring.plain 2 (by decide)) (Fin 2)) [] State.init := Reach.init rfl
  have hunlock : Reach (misuseSys (Ring.plain 2 (by decide)) (Fin 2))
      [⟨0, .readUnlock, some (-1)⟩] ((State.init : State (Fin 2)).releaseRead 0) :=
    hinit.step ⟨Step.readUnlock rfl rfl, Or.inr ⟨Or.inl rfl, rfl⟩⟩
  have hplay : (play (Ring.plain 2 (by decide)) [⟨0, .readUnlock, some (-1)⟩]
      ((State.init : State (Fin 2)).releaseRead 0) [(0, .call .read), (1, .call .write)]).map
        (fun q => ((q.2.threads 0).reads, (q.2.threads 1).writes)) = some (1, 1) := by decide +kernel
  obtain ⟨⟨tr, s⟩, hs, hheld⟩ := Option.map_eq_some_iff.mp hplay
  exact ⟨tr, s, reach_of_play_in (fun _ _ _ => misuse_step) hunlock hs,
    congrArg Prod.fst hheld, congrArg Prod.snd hheld⟩

end SystemProgramming.Rwlock
