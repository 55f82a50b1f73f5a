import SystemProgramming.Hashtable.Steps
import SystemProgramming.Rwlock.Alone
import SystemProgramming.Rwlock.Wrapping

/-!
# Calls of one thread

The four functions as one thread runs them: take the lock of the bucket, run the body to its end, give
the lock back, free what is left over.  What the allocator answers in the course of a call is an
argument of the call.  `none` stands for a call that does not return: it waits for a lock that it
cannot get, it leaves the arrays, it looks at a node that is not there, or it takes more steps than the
evaluation allows.

* `At.run`: a body runs to its unlock.
* `lockedCall_wrapping`: with tickets that wrap the calls run as without, as long as none overflows.
-/

namespace SystemProgramming.Hashtable

open Function

/-- `hashtable_t`, with the thread that uses it standing in each of its locks. -/
structure Store where
  hash_size : ℕ
  table : Table
  locks : ℤ → Rwlock.State Unit

/-! ### `hash_init` -/

/-- The loop of `hash_init` from the bucket `i` on; `lock_init` says which locks can be initialised.
It returns the table or NULL; the result is `none` where `i`, an `int`, overflows. -/
def initFrom (hash_size : ℕ) (lock_init : ℕ → Bool) (i : ℕ) (T : Table) : Option (Option Table) :=
  if i < hash_size then
    if lock_init i = false then some none
    else if i + 1 < 2 ^ 31 then
      initFrom hash_size lock_init (i + 1)
        { T with buckets := update T.buckets i none, bucket_sizes := update T.bucket_sizes i 0 }
    else none
  else some (some T)
termination_by hash_size - i

/-- `hash_init(hash_size, delay)`; `memory` says whether `calloc` succeeds. -/
def hash_init (hash_size : ℕ) (memory : Bool) (lock_init : ℕ → Bool) : Option (Option Store) :=
  if memory = false then some none
  else (initFrom hash_size lock_init 0 Table.init).map
    (Option.map fun T => ⟨hash_size, T, fun _ => Rwlock.State.init⟩)

theorem initFrom_eq {hash_size : ℕ} {lock_init : ℕ → Bool} {i : ℕ} {T : Table} (hi : i < 2 ^ 31)
    (h : initFrom hash_size lock_init i Table.init = some (some T)) :
    T = Table.init ∧ (i < hash_size → hash_size < 2 ^ 31) := by
  induction hk : hash_size - i generalizing i with
  | zero =>
    rw [initFrom, if_neg (by omega)] at h
    cases h
    exact ⟨rfl, fun hlt => by omega⟩
  | succ k ih =>
    rw [initFrom, if_pos (by omega)] at h
    split_ifs at h with hlock hint
    · cases h
    · have hsame : ({ Table.init with buckets := update Table.init.buckets i none
                                      bucket_sizes := update Table.init.bucket_sizes i 0 } : Table)
          = Table.init := by
        show Table.mk _ (update (fun _ => none) (i : ℤ) none) (update (fun _ => 0) (i : ℤ) 0) = _
        rw [update_eq_self (i : ℤ) fun _ => (none : Option Ptr), update_eq_self (i : ℤ) fun _ => (0 : ℤ)]
        rfl
      rw [hsame] at h
      obtain ⟨hT, hsize⟩ := ih hint h (by omega)
      exact ⟨hT, fun _ => by omega⟩

/-- A table that `hash_init` returns is empty, and its size is an `int`. -/
theorem hash_init_eq {hash_size : ℕ} {memory : Bool} {lock_init : ℕ → Bool} {S : Store}
    (h : hash_init hash_size memory lock_init = some (some S)) :
    S = ⟨hash_size, Table.init, fun _ => Rwlock.State.init⟩ ∧ hash_size < 2 ^ 31 := by
  unfold hash_init at h
  split_ifs at h
  · cases h
  · obtain ⟨T, hT, hS⟩ := Option.map_eq_some_iff.mp h
    cases T with
    | none => cases hS
    | some T =>
      obtain ⟨rfl, hsize⟩ := initFrom_eq (by decide) hT
      cases hS
      exact ⟨rfl, by omega⟩

/-! ### The four functions -/

/-- What the allocator answers in the course of a call: which pointer `malloc` returns, if any, and
whether `strdup` of the key and of the value succeed.  What it returns is not in use. -/
structure Allocs where
  malloc : Table → Option Ptr
  fresh : ∀ T p, malloc T = some p → T.nodes p = none
  key : Bool
  value : Bool

/-- The answer where a step asks. -/
def Allocs.answer (A : Allocs) (T : Table) : Pc → Option Ptr
  | .malloc => A.malloc T
  | .setKey p => if A.key then some p else none
  | .setValue p => if A.value then some p else none
  | .dupValue p => if A.value then some p else none
  | _ => none

/-- A body that nobody interrupts, from the step `pc` to its unlock. -/
def runBody (op : Op) (idx : ℤ) (A : Allocs) : ℕ → Table → Pc → Option (Result × Option Ptr × Table)
  | 0, _, _ => none
  | _ + 1, T, .unlock r garbage => some (r, garbage, T)
  | fuel + 1, T, pc =>
    (next op idx (A.answer T pc) T pc).bind fun s => runBody op idx A fuel s.2 s.1

/-- Free the node that a failed insertion leaves. -/
def Table.free (T : Table) : Option Ptr → Table
  | none => T
  | some p => T.setNode p none

/-- The lock function that the operation calls. -/
def Op.lockCall : Op → Rwlock.LockCall
  | insert _ _ => .write
  | read _ quick => if quick then .quick else .read
  | update _ _ => .write
  | delete _ => .write

/-- A call on the bucket of its key. -/
def lockedCall (ring : Rwlock.Ring) (fuel : ℕ) (A : Allocs) (S : Store) (op : Op) :
    Option (Result × Store) :=
  let idx := hash op.key S.hash_size
  if 0 ≤ idx ∧ idx < S.hash_size then
    match (S.locks idx).next ring () (.call op.lockCall) with
    | some (⟨_, _, some code⟩, L) =>
      if code < 0 then some (⟨-1, none⟩, { S with locks := update S.locks idx L })
      else
        (runBody op idx A fuel S.table .head).bind fun (r, garbage, T) =>
          (L.next ring () op.lockCall.release).map fun (_, L') =>
            (r, { S with table := T.free garbage, locks := update S.locks idx L' })
    | _ => none
  else none

section Functions

variable (ring : Rwlock.Ring) (fuel : ℕ) (A : Allocs) (S : Store)

def hash_insert (key value : Str) : Option (Result × Store) :=
  lockedCall ring fuel A S (.insert key value)

def hash_read (key : Str) (quick : Bool) : Option (Result × Store) :=
  lockedCall ring fuel A S (.read key quick)

def hash_update (key value : Str) : Option (Result × Store) :=
  lockedCall ring fuel A S (.update key value)

def hash_delete (key : Str) : Option (Result × Store) := lockedCall ring fuel A S (.delete key)

/-- The call of an operation. -/
def Op.call : Op → Option (Result × Store)
  | insert key value => hash_insert ring fuel A S key value
  | read key quick => hash_read ring fuel A S key quick
  | update key value => hash_update ring fuel A S key value
  | delete key => hash_delete ring fuel A S key

theorem Op.call_eq (op : Op) : op.call ring fuel A S = lockedCall ring fuel A S op := by
  cases op <;> rfl

end Functions

/-! ### What the lock decides -/

section Locked

variable {ring : Rwlock.Ring} {fuel : ℕ} {A : Allocs} {S : Store} {i : ℤ}
  {L L' : Rwlock.State Unit} {e e' : Rwlock.Event Unit}

/-- A call that gets the lock, runs its body and gives the lock back. -/
theorem lockedCall_granted (op : Op) (hi : hash op.key S.hash_size = i) (h₀ : 0 ≤ i) (hlt : i < S.hash_size)
    (hlock : (S.locks i).next ring () (.call op.lockCall) = some (e, L)) (hresult : e.result = some 0)
    {r : Result} {garbage : Option Ptr} {T : Table}
    (hbody : runBody op i A fuel S.table .head = some (r, garbage, T))
    (hrelease : L.next ring () op.lockCall.release = some (e', L')) :
    lockedCall ring fuel A S op
      = some (r, { S with table := T.free garbage, locks := update S.locks i L' }) := by
  obtain ⟨t, a, result⟩ := e
  obtain rfl : result = some 0 := hresult
  unfold lockedCall
  dsimp only
  rw [hi, if_pos ⟨h₀, hlt⟩, hlock]
  dsimp only
  rw [if_neg (by decide), hbody, Option.bind_some, hrelease]
  rfl

/-- A call that waits for the lock does not return. -/
theorem lockedCall_waits (op : Op) (hi : hash op.key S.hash_size = i)
    (hlock : (S.locks i).next ring () (.call op.lockCall) = some (e, L)) (hresult : e.result = none) :
    lockedCall ring fuel A S op = none := by
  obtain ⟨t, a, result⟩ := e
  obtain rfl : result = none := hresult
  unfold lockedCall
  dsimp only
  rw [hi, hlock]
  split_ifs <;> rfl

end Locked

/-! ### Bodies that nobody interrupts -/

variable {op : Op} {i : ℤ} {c : List Entry} {T T' : Table} {xs : List (Ptr × Entry)} {own : List Ptr}
  {pc : Pc} {f : Bool} {A : Allocs} {fuel : ℕ}

theorem runBody_succ (hpc : ¬ ∃ r g, pc = .unlock r g) (fuel : ℕ) :
    runBody op i A (fuel + 1) T pc
      = (next op i (A.answer T pc) T pc).bind fun s => runBody op i A fuel s.2 s.1 := by
  cases pc with
  | unlock r g => exact absurd ⟨r, g, rfl⟩ hpc
  | _ => rfl

/-- More steps than are needed change nothing. -/
theorem runBody_mono {fuel' : ℕ} {x : Result × Option Ptr × Table}
    (h : runBody op i A fuel T pc = some x) (hle : fuel ≤ fuel') :
    runBody op i A fuel' T pc = some x := by
  induction fuel generalizing fuel' T pc with
  | zero => cases h
  | succ fuel ih =>
    obtain ⟨fuel', rfl⟩ : ∃ k, fuel' = k + 1 := ⟨fuel' - 1, by omega⟩
    by_cases hpc : ∃ r g, pc = .unlock r g
    · obtain ⟨r, g, rfl⟩ := hpc
      exact h
    · rw [runBody_succ hpc] at h ⊢
      obtain ⟨s, hs, hbody⟩ := Option.bind_eq_some_iff.mp h
      rw [hs]
      exact ih hbody (by omega)

theorem lockedCall_mono {ring : Rwlock.Ring} {fuel' : ℕ} {S : Store} {x : Result × Store}
    (h : lockedCall ring fuel A S op = some x) (hle : fuel ≤ fuel') :
    lockedCall ring fuel' A S op = some x := by
  unfold lockedCall at h ⊢
  dsimp only at h ⊢
  split_ifs at h ⊢ with hidx
  revert h
  split
  · split
    · exact fun h => h
    · intro h
      obtain ⟨y, hy, hrest⟩ := Option.bind_eq_some_iff.mp h
      rw [runBody_mono hy hle]
      exact hrest
  · nofun

/-- The call draws no ticket, or the tickets of the lock of its bucket are not used up. -/
def Op.TicketLeft (S : Store) (op : Op) : Prop :=
  op.lockCall ≠ .quick → (S.locks (hash op.key S.hash_size)).lock.nextElement < 2 ^ 31 - 1

instance (S : Store) (op : Op) : Decidable (op.TicketLeft S) := inferInstanceAs (Decidable (_ → _))

theorem Op.TicketLeft.bound {S : Store} (h : op.TicketLeft S) :
    Rwlock.Action.call op.lockCall = .call .read ∨ Rwlock.Action.call op.lockCall = .call .write →
      (S.locks (hash op.key S.hash_size)).lock.nextElement < 2 ^ 31 - 1 := by
  intro hcall
  refine h fun hquick => ?_
  rw [hquick] at hcall
  rcases hcall with hcall | hcall <;> cases hcall

/-- **The calls run as on the plain ring** as long as no ticket overflows. -/
theorem lockedCall_wrapping {R : ℕ} {p : 0 < R} {S : Store} (hticket : op.TicketLeft S)
    (h : Rwlock.Early (S.locks (hash op.key S.hash_size)).lock) :
    lockedCall (Rwlock.Ring.wrapping R p) fuel A S op = lockedCall (Rwlock.Ring.plain R p) fuel A S op := by
  have hrelease : ∀ L : Rwlock.State Unit,
      L.next (Rwlock.Ring.wrapping R p) () op.lockCall.release
        = L.next (Rwlock.Ring.plain R p) () op.lockCall.release :=
    fun L => Rwlock.next_release _ _ L () op.lockCall
  simp only [lockedCall, Rwlock.next_wrapping (p := p) h hticket.bound, hrelease]

/-- The lock of the bucket does not overflow in the call. -/
theorem lockedCall_early {R : ℕ} {p : 0 < R} {S S' : Store} {r : Result} (hticket : op.TicketLeft S)
    (h : ∀ i, Rwlock.Early (S.locks i).lock)
    (hcall : lockedCall (Rwlock.Ring.plain R p) fuel A S op = some (r, S')) (i : ℤ) :
    Rwlock.Early (S'.locks i).lock := by
  have hupdate : ∀ L : Rwlock.State Unit, Rwlock.Early L.lock →
      ∀ i, Rwlock.Early (update S.locks (hash op.key S.hash_size) L i).lock := by
    intro L hL i
    by_cases hi : i = hash op.key S.hash_size
    · rw [hi, update_self]
      exact hL
    · rw [update_of_ne hi]
      exact h i
  unfold lockedCall at hcall
  dsimp only at hcall
  split_ifs at hcall with hidx
  split at hcall
  · rename_i t a code L hL
    have hlocked := (h _).next hticket.bound hL
    split_ifs at hcall with hcode
    · cases hcall
      exact hupdate L hlocked i
    · obtain ⟨x, -, hrest⟩ := Option.bind_eq_some_iff.mp hcall
      obtain ⟨⟨e, L'⟩, hL', hdone⟩ := Option.map_eq_some_iff.mp hrest
      cases hdone
      refine hupdate L' (hlocked.next (fun hdraws => ?_) hL') i
      cases hop : op.lockCall <;> rw [hop] at hdraws <;> rcases hdraws with hdraws | hdraws <;> cases hdraws
  · cases hcall

theorem Allocs.answer_fresh (A : Allocs) {p : Ptr} (hp : p ∈ A.answer T pc) (hpc : pc = .malloc) :
    T.nodes p = none := by
  subst hpc
  exact A.fresh T p hp

/-- Whether the memory that the operation needs for a change is there. -/
def Allocs.ok (A : Allocs) (T : Table) : Op → Bool
  | .insert _ _ => (A.malloc T).isSome && A.key && A.value
  | .read _ _ => true
  | .update _ _ => A.value
  | .delete _ => true

/-- What the answers so far say about `Allocs.ok` in the table `T₀` in which the body began. -/
def Tracks (A : Allocs) (T₀ : Table) (op : Op) (f : Bool) (T : Table) : Pc → Prop
  | .head => f = false ∧ T = T₀
  | .visit _ _ => f = false ∧ T = T₀
  | .malloc => f = false ∧ T = T₀ ∧ A.ok T₀ op = ((A.malloc T₀).isSome && A.key && A.value)
  | .setKey _ => f = false ∧ A.ok T₀ op = (A.key && A.value)
  | .setValue _ => f = !A.key ∧ A.ok T₀ op = (A.key && A.value)
  | .check _ => f = !A.ok T₀ op
  | .dupValue _ => f = false ∧ A.ok T₀ op = A.value
  | .unlock r _ => r.ret = 0 ∨ f = !A.ok T₀ op
  | _ => f = false ∧ A.ok T₀ op = true

theorem Tracks.next {T₀ : Table} (ht : Tracks A T₀ op f T pc) (h : At op i c f T xs own pc) {pc' : Pc}
    (hnext : next op i (A.answer T pc) T pc = some (pc', T')) :
    Tracks A T₀ op (f || (pc.allocates && (A.answer T pc).isNone)) T' pc' := by
  cases h.stage with
  | head _ _ =>
    cases hnext
    exact ht
  | visit _ _ _ =>
    obtain ⟨rfl, hpc⟩ := next_visit_cases hnext
    rcases hpc with rfl | ⟨p, rfl⟩ | ⟨p, q, rfl⟩
    · cases op with
      | insert key value => exact ⟨rfl, ht.2, rfl⟩
      | _ => exact Or.inl rfl
    · cases op with
      | insert key value => exact Or.inl rfl
      | read key quick => exact ⟨rfl, rfl⟩
      | update key value => exact ⟨rfl, rfl⟩
      | delete key =>
        rename_i l r _ _ _
        cases hprev : l.getLast?.map Prod.fst <;> exact ⟨rfl, rfl⟩
    · exact ht
  | malloc _ =>
    obtain ⟨-, rfl, hok⟩ := ht
    change (match A.malloc T with | none => _ | some p => _) = _ at hnext
    show Tracks A T op (A.malloc T).isNone T' pc'
    cases hmalloc : A.malloc T with
    | none =>
      rw [hmalloc] at hnext hok
      cases hnext
      exact Or.inr (by rw [hok]; rfl)
    | some p =>
      rw [hmalloc] at hnext hok
      cases hnext
      exact ⟨rfl, hok⟩
  | setKey _ _ =>
    obtain ⟨n, -, hnext⟩ := Option.bind_eq_some_iff.mp hnext
    cases hnext
    refine ⟨?_, ht.2⟩
    show (if A.key = true then some _ else none).isNone = !A.key
    cases A.key <;> rfl
  | setValue _ _ _ =>
    obtain ⟨n, -, hnext⟩ := Option.bind_eq_some_iff.mp hnext
    cases hnext
    show (f || (if A.value = true then some _ else none).isNone) = !A.ok T₀ op
    rw [ht.1, ht.2]
    cases A.key <;> cases A.value <;> rfl
  | check _ hp hfail _ =>
    obtain ⟨n, hn, hnext⟩ := Option.bind_eq_some_iff.mp hnext
    have hf : f = !A.ok T₀ op := ht
    show Tracks A T₀ op (f || false) T' pc'
    rw [Bool.or_false]
    split at hnext
    · cases hnext
      exact Or.inr hf
    · rename_i hboth
      cases hnext
      rw [hp] at hn
      cases hn
      have hfalse : f = false := by
        rw [← Bool.not_eq_true]
        exact fun htrue => hboth (hfail htrue)
      rw [hfalse] at hf ⊢
      exact ⟨rfl, by simpa using hf.symm⟩
  | dupValue _ _ =>
    rename_i l r p e _ _
    have hanswer : A.answer T (.dupValue p) = if A.value = true then some p else none := rfl
    have hok := ht.2
    rw [hanswer] at hnext ⊢
    cases hvalue : A.value with
    | false =>
      rw [hvalue] at hnext hok
      cases hnext
      exact Or.inr (by rw [hok]; rfl)
    | true =>
      rw [hvalue] at hnext hok
      cases hnext
      exact ⟨rfl, hok⟩
  | unlock _ _ _ => cases hnext
  | countUp _ | countDown _ _ =>
    cases hnext
    exact Or.inr (by rw [ht.1, ht.2]; rfl)
  | link _ _ =>
    cases hnext
    exact ht
  | setKeySize _ _ _ _ | setValueSize _ _ _ _ _ | clearNext _ _ | setNext _ _
  | storeValue _ _ | unlinkHead _ _ | free _ _ _ =>
    obtain ⟨n, -, hnext⟩ := Option.bind_eq_some_iff.mp hnext
    cases hnext
    exact ht
  | copy _ _ | unlinkAfter _ _ =>
    obtain ⟨n, -, hnext⟩ := Option.bind_eq_some_iff.mp hnext
    obtain ⟨m, -, hnext⟩ := Option.bind_eq_some_iff.mp hnext
    cases hnext
    first | exact ht | exact Or.inr (by rw [ht.1, ht.2]; rfl)
  | storeSize _ _ =>
    obtain ⟨n, -, hnext⟩ := Option.bind_eq_some_iff.mp hnext
    cases hnext
    exact Or.inr (by rw [ht.1, ht.2]; rfl)

/-- **A body runs to its unlock** within its rank. -/
theorem At.run (h : At op i c f T xs own pc) (hfuel : pc.rank xs < fuel) :
    ∃ r g T' xs' f', runBody op i A fuel T pc = some (r, g, T') ∧
      At op i c f' T' xs' g.toList (.unlock r g) ∧
      Local i (xs.map Prod.fst ++ own) (xs'.map Prod.fst ++ g.toList) T T' ∧
      ((Pc.unlock r g).changed = false → pc.changed = false ∧ Private own g.toList T T') ∧
      ∀ T₀, Tracks A T₀ op f T pc → Tracks A T₀ op f' T' (.unlock r g) := by
  induction fuel generalizing T xs own pc f with
  | zero => exact absurd hfuel (Nat.not_lt_zero _)
  | succ fuel ih =>
    by_cases hpc : ∃ r g, pc = .unlock r g
    · obtain ⟨r, g, rfl⟩ := hpc
      obtain ⟨-, -, rfl⟩ := h.stage.of_unlock
      exact ⟨r, g, T, xs, f, rfl, h, Local.same T _,
        fun hpc => ⟨hpc, Private.same g.toList T⟩, fun _ ht => ht⟩
    · have hpc' : ∀ r g, pc ≠ .unlock r g := fun r g heq => hpc ⟨r, g, heq⟩
      obtain ⟨pc₁, T₁, xs₁, own₁, hnext, hfollows⟩ := h.step hpc' fun p => A.answer_fresh
      have hless := hfollows.rank
      obtain ⟨r, g, T', xs', f', hrun, hat, hlocal, hquiet, htracks⟩ :=
        ih hfollows.at_next (by omega)
      refine ⟨r, g, T', xs', f', ?_, hat, hfollows.frame.trans hlocal, fun hpc => ?_, fun T₀ ht => ?_⟩
      · rw [runBody_succ hpc, hnext]
        exact hrun
      · obtain ⟨hpc₁, hprivate⟩ := hquiet hpc
        obtain ⟨hpc₀, hprivate₀⟩ := hfollows.quiet hpc₁
        exact ⟨hpc₀, hprivate₀.trans hprivate⟩
      · exact htracks T₀ (ht.next h hnext)

end SystemProgramming.Hashtable
