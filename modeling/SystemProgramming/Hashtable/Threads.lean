import SystemProgramming.Hashtable.Refinement
import SystemProgramming.Rwlock.Holding

/-!
# Threads that share a table

Any thread may take its next step at any time: a section of a lock function, one step of a body, the
section of an unlock, or the `free` of what a failed insertion has left.  The locks are those of the
buckets, with a ring of any size and any tickets.  Grants are numbered, so that the events show in
which order the locks were granted.

* `Step`, `tableSys`: the threads and their steps.
* `World.play`: the run that a list of deeds determines; `reach_of_play` says that it is one.
-/

namespace SystemProgramming.Hashtable

open Function

/-- Where a thread is. -/
inductive Place where
  | outside
  | waiting (op : Op)
  -- the body has been granted its lock as the grant number `grant`
  | inside (op : Op) (grant : ℕ) (pc : Pc)
  -- the lock has been given back; the node `p` is left over from a failed insertion
  | leaving (p : Ptr)
  deriving DecidableEq

/-- The table, the locks of its buckets, the threads, and the number of grants so far. -/
structure World (Θ : Type) where
  hash_size : ℕ
  table : Table
  locks : ℤ → Rwlock.State Θ
  places : Θ → Place
  grants : ℕ

/-- What a thread does. -/
inductive Deed where
  | call (op : Op) (result : Option ℤ)
  | wake (op : Op) (result : Option ℤ)
  | body
  | unlock (op : Op) (grant : ℕ) (r : Result)
  | free

/-- A step as it shows from outside. -/
structure Event (Θ : Type) where
  thread : Θ
  deed : Deed

variable {Θ : Type} [DecidableEq Θ]

/-- The bucket of an operation. -/
def World.bucket (W : World Θ) (op : Op) : ℤ := hash op.key W.hash_size

/-- The state after a section of the lock function that `t` has called for `op`: it waits, its call
returns -1, or its body begins. -/
def World.locked (W : World Θ) (t : Θ) (op : Op) (L : Rwlock.State Θ) : Option ℤ → World Θ
  | none =>
    { W with locks := update W.locks (W.bucket op) L, places := update W.places t (.waiting op) }
  | some code =>
    if code < 0 then
      { W with locks := update W.locks (W.bucket op) L, places := update W.places t .outside }
    else
      { W with locks := update W.locks (W.bucket op) L
               places := update W.places t (.inside op W.grants .head)
               grants := W.grants + 1 }

/-- Where a thread is that has given its lock back. -/
def Place.afterUnlock : Option Ptr → Place
  | none => .outside
  | some p => .leaving p

/-- One step. -/
inductive Step (ring : Rwlock.Ring) (W : World Θ) : Event Θ → World Θ → Prop where
  | call {t : Θ} {op : Op} {result : Option ℤ} {L : Rwlock.State Θ} (hplace : W.places t = .outside)
      (hlock : Rwlock.Step ring (W.locks (W.bucket op)) ⟨t, .call op.lockCall, result⟩ L) :
      Step ring W ⟨t, .call op result⟩ (W.locked t op L result)
  | wake {t : Θ} {op : Op} {result : Option ℤ} {L : Rwlock.State Θ} (hplace : W.places t = .waiting op)
      (hlock : Rwlock.Step ring (W.locks (W.bucket op)) ⟨t, .wake op.lockCall, result⟩ L) :
      Step ring W ⟨t, .wake op result⟩ (W.locked t op L result)
  | body {t : Θ} {op : Op} {grant : ℕ} {pc pc' : Pc} {a : Option Ptr} {T : Table}
      (hplace : W.places t = .inside op grant pc)
      (hfresh : ∀ p ∈ a, pc = .malloc → W.table.nodes p = none)
      (hnext : next op (W.bucket op) a W.table pc = some (pc', T)) :
      Step ring W ⟨t, .body⟩
        { W with table := T, places := update W.places t (.inside op grant pc') }
  | unlock {t : Θ} {op : Op} {grant : ℕ} {r : Result} {garbage : Option Ptr} {code : Option ℤ}
      {L : Rwlock.State Θ} (hplace : W.places t = .inside op grant (.unlock r garbage))
      (hlock : Rwlock.Step ring (W.locks (W.bucket op)) ⟨t, op.lockCall.release, code⟩ L) :
      Step ring W ⟨t, .unlock op grant r⟩
        { W with locks := update W.locks (W.bucket op) L
                 places := update W.places t (.afterUnlock garbage) }
  | free {t : Θ} {p : Ptr} (hplace : W.places t = .leaving p) :
      Step ring W ⟨t, .free⟩
        { W with table := W.table.setNode p none, places := update W.places t .outside }

/-- Threads that make calls on a table from `hash_init`. -/
def tableSys (ring : Rwlock.Ring) (hash_size : ℕ) (Θ : Type) [DecidableEq Θ] :
    Sys (World Θ) (Event Θ) where
  init W := ∃ memory lock_init S, hash_init hash_size memory lock_init = some (some S) ∧
    W = ⟨S.hash_size, S.table, fun _ => Rwlock.State.init, fun _ => .outside, 0⟩
  step := Step ring

/-- A call that has been through its body. -/
structure Done where
  op : Op
  grant : ℕ
  result : Result

/-- The calls that have given their lock back, in the order in which they have. -/
def done (tr : List (Event Θ)) : List Done :=
  tr.filterMap fun e =>
    match e.deed with
    | .unlock op grant r => some ⟨op, grant, r⟩
    | _ => none

/-- Two operations on one bucket that do not commute. -/
def Conflict (hash_size : ℕ) (op op' : Op) : Prop :=
  hash op.key hash_size = hash op'.key hash_size ∧ (op.writes = true ∨ op'.writes = true)

/-- No thread is between its lock call and its unlock. -/
def World.Idle (W : World Θ) : Prop := ∀ t op grant pc, W.places t ≠ .inside op grant pc

/-! ### Runs, computed -/

/-- The next step of `t`, if it can take one: outside it calls `op`, and where its body asks for memory it is
given `a`. -/
def World.advance (ring : Rwlock.Ring) (W : World Θ) (t : Θ) (op : Op) (a : Option Ptr) :
    Option (Event Θ × World Θ) :=
  match W.places t with
  | .outside =>
    ((W.locks (W.bucket op)).next ring t (.call op.lockCall)).map fun q =>
      (⟨t, .call op q.1.result⟩, W.locked t op q.2 q.1.result)
  | .waiting op =>
    ((W.locks (W.bucket op)).next ring t (.wake op.lockCall)).map fun q =>
      (⟨t, .wake op q.1.result⟩, W.locked t op q.2 q.1.result)
  | .inside op grant (.unlock r garbage) =>
    ((W.locks (W.bucket op)).next ring t op.lockCall.release).map fun q =>
      (⟨t, .unlock op grant r⟩,
        { W with locks := update W.locks (W.bucket op) q.2
                 places := update W.places t (.afterUnlock garbage) })
  | .inside op grant pc =>
    if ∀ p ∈ a, pc = .malloc → W.table.nodes p = none then
      (next op (W.bucket op) a W.table pc).map fun q =>
        (⟨t, .body⟩, { W with table := q.2, places := update W.places t (.inside op grant q.1) })
    else none
  | .leaving p =>
    some (⟨t, .free⟩, { W with table := W.table.setNode p none, places := update W.places t .outside })

theorem step_of_advance {ring : Rwlock.Ring} {W W' : World Θ} {t : Θ} {op : Op} {a : Option Ptr} {e : Event Θ}
    (h : W.advance ring t op a = some (e, W')) : Step ring W e W' := by
  unfold World.advance at h
  split at h
  · rename_i hplace
    obtain ⟨⟨e', L⟩, hnext, heq⟩ := Option.map_eq_some_iff.mp h
    cases heq
    have hlock := (Rwlock.step_of_next hnext).1
    rw [Rwlock.event_of_next hnext] at hlock
    exact .call hplace hlock
  · rename_i op hplace
    obtain ⟨⟨e', L⟩, hnext, heq⟩ := Option.map_eq_some_iff.mp h
    cases heq
    have hlock := (Rwlock.step_of_next hnext).1
    rw [Rwlock.event_of_next hnext] at hlock
    exact .wake hplace hlock
  · rename_i op grant r garbage hplace
    obtain ⟨⟨e', L⟩, hnext, heq⟩ := Option.map_eq_some_iff.mp h
    cases heq
    have hlock := (Rwlock.step_of_next hnext).1
    rw [Rwlock.event_of_next hnext] at hlock
    exact .unlock hplace hlock
  · rename_i op grant pc _ hplace
    split at h
    · rename_i hfresh
      obtain ⟨⟨pc', T⟩, hnext, heq⟩ := Option.map_eq_some_iff.mp h
      cases heq
      exact .body hplace hfresh hnext
    · cases h
  · rename_i p hplace
    cases h
    exact .free hplace

/-- The threads take their steps in the given order. -/
def World.play (ring : Rwlock.Ring) (tr : List (Event Θ)) (W : World Θ) :
    List (Θ × Op × Option Ptr) → Option (List (Event Θ) × World Θ)
  | [] => some (tr, W)
  | (t, op, a) :: steps => (W.advance ring t op a).bind fun (e, W') => W'.play ring (tr ++ [e]) steps

theorem reach_of_play {ring : Rwlock.Ring} {hash_size : ℕ} {steps : List (Θ × Op × Option Ptr)}
    {tr tr' : List (Event Θ)} {W W' : World Θ} (h : Reach (tableSys ring hash_size Θ) tr W)
    (hplay : W.play ring tr steps = some (tr', W')) : Reach (tableSys ring hash_size Θ) tr' W' := by
  induction steps generalizing tr W with
  | nil =>
    cases hplay
    exact h
  | cons step steps ih =>
    unfold World.play at hplay
    obtain ⟨⟨e, W₁⟩, hnext, hrest⟩ := Option.bind_eq_some_iff.mp hplay
    exact ih (h.step (step_of_advance hnext)) hrest

/-- A table with one bucket, and two threads. -/
def sampleStart : World (Fin 2) := ⟨1, Table.init, fun _ => Rwlock.State.init, fun _ => .outside, 0⟩

/-- The first thread inserts a key at the address 5; the second one calls `op` meanwhile, and goes on for `n` steps
when it gets the lock. -/
def sampleSteps (value : Str) (op : Op) (n : ℕ) : List (Fin 2 × Op × Option Ptr) :=
  (0, .insert [] value, some 5) :: (1, op, some 7) ::
    (List.replicate 13 (0, .insert [] value, some 5) ++ List.replicate n (1, op, some 7))

theorem reach_sampleStart (ring : Rwlock.Ring) : Reach (tableSys ring 1 (Fin 2)) [] sampleStart :=
  Reach.init ⟨true, fun _ => true, _, hash_init_one, rfl⟩

end SystemProgramming.Hashtable
