import SystemProgramming.Hashtable.Destroy
import SystemProgramming.Lib.Ledger
import Mathlib.Order.Interval.Finset.Nat

/-!
# What a table is made of

The memory, the mutexes and the condition variables that `hash_init` asks for, any of which may be refused, and
that it and `hash_destroy` give back.  `hash_init` gets all of them or keeps none, and `hash_destroy` gives back
all of them if no lock refuses; nothing is given back twice.

* `hash_init_all_or_nothing`: `hash_init` gets everything or keeps nothing, whatever it is refused.
* `hash_destroy_gives_back`: what `hash_destroy` gives back, and that nothing is given back twice.
-/

namespace SystemProgramming.Hashtable.Resources

open Exec Ledger

/-- The allocations for a table, and for the lock of the bucket `i`. -/
inductive Resource where
  | table
  | buckets
  | locks
  | bucket_sizes
  | mutex (i : ℕ)
  | uctx (i : ℕ)
  | cv (i : ℕ)
  deriving DecidableEq

open Resource

variable (grant : Resource → Bool)

/-- `rwlock_init(&table->locks[i], delay)` -/
def rwlock_init (i : ℕ) : Exec (Finset Resource) ℤ := do
  if !(← acquire grant (mutex i)) then
    return -1
  if !(← acquire grant (uctx i)) then
    release (mutex i)
    return -1
  if !(← acquire grant (cv i)) then
    release (uctx i)
    release (mutex i)
    return -1
  return 0

/-- `rwlock_destroy(&table->locks[i])`, for a lock in the state `u`. -/
def rwlock_destroy (u : Rwlock.Lock) (i : ℕ) : Exec (Finset Resource) ℤ :=
  if (Rwlock.rwlockDestroy u).code ≠ 0 then return -1
  else do
    release (cv i)
    release (mutex i)
    release (uctx i)
    return 0

/-- `for (j = 0; j < i; j++)`: the locks before the bucket `i` are destroyed, from `j` on. -/
def destroyBefore : ℕ → ℕ → Exec (Finset Resource) Unit
  | 0, _ => pure ()
  | n + 1, j => do
    let _ ← rwlock_destroy Rwlock.Lock.init j
    destroyBefore n (j + 1)

/-- Where an `int` overflows. -/
def signedOverflow {α : Type} : Exec (Finset Resource) α := fun _ => .abort

/-- The loop of `hash_init` from the bucket `i` on, with `n` buckets to go.  `i`, an `int`, must not overflow. -/
def initLocks : ℕ → ℕ → Exec (Finset Resource) Bool
  | 0, _ => pure true
  | n + 1, i => do
    let ret ← rwlock_init grant i
    if ret ≠ 0 then
      destroyBefore i 0
      release buckets
      release locks
      release bucket_sizes
      release table
      return false
    if i + 1 < 2 ^ 31 then initLocks n (i + 1) else signedOverflow

/-- `hash_init(hash_size, delay)`: does it return a table, or NULL? -/
def hash_init (hash_size : ℕ) : Exec (Finset Resource) Bool := do
  if !(← acquire grant table) then
    return false
  if !(← acquire grant buckets) then
    release table
    return false
  if !(← acquire grant locks) then
    release buckets
    release table
    return false
  if !(← acquire grant bucket_sizes) then
    release buckets
    release locks
    release table
    return false
  initLocks grant hash_size 0

/-- The loop of `hash_destroy` from the bucket `i` on, with `n` buckets to go; the nodes are those of
`Hashtable.hash_destroy`. -/
def destroyLocks (rws : ℕ → Rwlock.Lock) : ℕ → ℕ → Exec (Finset Resource) ℤ
  | 0, _ => do
    release buckets
    release locks
    release bucket_sizes
    release table
    return 0
  | n + 1, i => do
    let ret ← rwlock_destroy (rws i) i
    if ret ≠ 0 then
      return -1
    if i + 1 < 2 ^ 31 then destroyLocks rws n (i + 1) else signedOverflow

/-- `hash_destroy(table)` -/
def hash_destroy (rws : ℕ → Rwlock.Lock) (hash_size : ℕ) : Exec (Finset Resource) ℤ :=
  destroyLocks rws hash_size 0

/-! ### What is live -/

/-- What the lock of the bucket `i` is made of. -/
def parts (i : ℕ) : Finset Resource := {mutex i, uctx i, cv i}

/-- The arrays, and the locks of the buckets from `j` on and before `n`. -/
def held (j n : ℕ) : Finset Resource :=
  {table, buckets, locks, bucket_sizes} ∪ (Finset.Ico j n).biUnion parts

variable {grant} {i j n : ℕ} {live : Finset Resource}

@[simp] theorem mutex_mem_held : mutex i ∈ held j n ↔ j ≤ i ∧ i < n := by simp [held, parts]

@[simp] theorem uctx_mem_held : uctx i ∈ held j n ↔ j ≤ i ∧ i < n := by simp [held, parts]

@[simp] theorem cv_mem_held : cv i ∈ held j n ↔ j ≤ i ∧ i < n := by simp [held, parts]

@[simp] theorem table_mem_held : table ∈ held j n := by simp [held]

@[simp] theorem buckets_mem_held : buckets ∈ held j n := by simp [held]

@[simp] theorem locks_mem_held : locks ∈ held j n := by simp [held]

@[simp] theorem bucket_sizes_mem_held : bucket_sizes ∈ held j n := by simp [held]

/-- One lock more. -/
theorem held_succ (hj : j ≤ n) : held j n ∪ parts n = held j (n + 1) := by
  ext r
  cases r <;> simp [parts] <;> omega

/-- One lock less. -/
theorem held_sdiff (_ : j < n) : held j n \ parts j = held (j + 1) n := by
  ext r
  cases r <;> simp [parts] <;> omega

theorem parts_subset_held (hj : j ≤ i) (hi : i < n) : parts i ⊆ held j n := by
  intro r hr
  simp only [parts, Finset.mem_insert, Finset.mem_singleton] at hr
  rcases hr with rfl | rfl | rfl <;> simp [hj, hi]

theorem held_self (n : ℕ) : held n n = {table, buckets, locks, bucket_sizes} := by
  simp [held]

theorem held_self_subset : held n n ⊆ held i j := by
  rw [held_self]
  exact Finset.subset_union_left

theorem parts_not_mem_held {r : Resource} (hr : r ∈ parts i) (h : i < j ∨ n ≤ i) : r ∉ held j n := by
  simp only [parts, Finset.mem_insert, Finset.mem_singleton] at hr
  rcases hr with rfl | rfl | rfl <;> simp <;> omega

/-! ### One lock -/

/-- A lock gets all of its parts, or keeps none. -/
theorem wp_rwlock_init {Q : ℤ → Finset Resource → Prop} (hout : ∀ r ∈ parts i, r ∉ live)
    (hgranted : (∀ r ∈ parts i, grant r = true) → Q 0 (live ∪ parts i))
    (hrefused : (∃ r ∈ parts i, grant r = false) → Q (-1) live) : wp (rwlock_init grant i) Q live := by
  have hmutex : mutex i ∉ live := hout _ (by simp [parts])
  have huctx : uctx i ∉ insert (mutex i) live := by simpa using hout (uctx i) (by simp [parts])
  have hcv : cv i ∉ insert (uctx i) (insert (mutex i) live) := by
    simpa using hout (cv i) (by simp [parts])
  unfold rwlock_init
  apply wp_request hmutex
  · intro hg₁
    apply wp_request huctx
    · intro hg₂
      apply wp_request hcv
      · intro hg₃
        rw [wp_pure]
        have hall : live ∪ parts i = insert (cv i) (insert (uctx i) (insert (mutex i) live)) := by
          ext r
          simp [parts]
          tauto
        rw [← hall]
        apply hgranted
        simp [parts, hg₁, hg₂, hg₃]
      · intro hg₃
        rw [wp_bind]
        apply wp_release (by simp)
        rw [Finset.erase_insert huctx, wp_bind]
        apply wp_release (by simp)
        rw [Finset.erase_insert hmutex, wp_pure]
        exact hrefused ⟨cv i, by simp [parts], hg₃⟩
    · intro hg₂
      rw [wp_bind]
      apply wp_release (by simp)
      rw [Finset.erase_insert hmutex, wp_pure]
      exact hrefused ⟨uctx i, by simp [parts], hg₂⟩
  · intro hg₁
    rw [wp_pure]
    exact hrefused ⟨mutex i, by simp [parts], hg₁⟩

/-- A lock that does not refuse gives back all of its parts. -/
theorem wp_rwlock_destroy {Q : ℤ → Finset Resource → Prop} {u : Rwlock.Lock} (hmem : parts i ⊆ live)
    (hgone : ¬ Refuses u → Q 0 (live \ parts i)) (hrefused : Refuses u → Q (-1) live) :
    wp (rwlock_destroy u i) Q live := by
  unfold rwlock_destroy
  split_ifs with hu
  · rw [wp_pure]
    exact hrefused hu
  · have hcv : cv i ∈ live := hmem (by simp [parts])
    have hmutex : mutex i ∈ live.erase (cv i) := by
      simpa using hmem (show mutex i ∈ parts i by simp [parts])
    have huctx : uctx i ∈ (live.erase (cv i)).erase (mutex i) := by
      simpa using hmem (show uctx i ∈ parts i by simp [parts])
    rw [wp_bind]
    apply wp_release hcv
    rw [wp_bind]
    apply wp_release hmutex
    rw [wp_bind]
    apply wp_release huctx
    rw [wp_pure]
    have hall : live \ parts i = ((live.erase (cv i)).erase (mutex i)).erase (uctx i) := by
      ext r
      simp [parts]
      tauto
    rw [← hall]
    exact hgone hu

/-! ### The loops -/

/-- The arrays are freed. -/
theorem wp_freeArrays {α : Type} {Q : α → Finset Resource → Prop} {x : Exec (Finset Resource) α}
    (h : wp x Q ∅) : wp (do release buckets; release locks; release bucket_sizes; release table; x) Q
      (held n n) := by
  have hempty : ((((held n n).erase buckets).erase locks).erase bucket_sizes).erase table = ∅ := by
    rw [held_self]
    decide
  rw [wp_bind]
  apply wp_release (by simp)
  rw [wp_bind]
  apply wp_release (by simp)
  rw [wp_bind]
  apply wp_release (by simp)
  rw [wp_bind]
  apply wp_release (by simp)
  rwa [hempty]

theorem not_refuses_init : ¬ Refuses Rwlock.Lock.init := by
  show ¬ (Rwlock.rwlockDestroy Rwlock.Lock.init).code ≠ 0
  decide

theorem wp_destroyBefore {Q : Unit → Finset Resource → Prop} (h : Q () (held (j + n) (j + n))) :
    wp (destroyBefore n j) Q (held j (j + n)) := by
  induction n generalizing j with
  | zero =>
    unfold destroyBefore
    rw [wp_pure]
    exact h
  | succ n ih =>
    unfold destroyBefore
    rw [wp_bind]
    apply wp_rwlock_destroy (parts_subset_held (Nat.le_refl j) (by omega))
    · intro _
      rw [held_sdiff (by omega), show j + (n + 1) = j + 1 + n by omega]
      apply ih
      rwa [show j + 1 + n = j + (n + 1) by omega]
    · exact fun hrefuses => absurd hrefuses not_refuses_init

/-- The loop of `hash_init` gets every lock, or gives back everything. -/
theorem wp_initLocks {Q : Bool → Finset Resource → Prop} (hint : i + n < 2 ^ 31)
    (hall : (∀ k, i ≤ k → k < i + n → ∀ r ∈ parts k, grant r = true) → Q true (held 0 (i + n)))
    (hsome : (∃ k, i ≤ k ∧ k < i + n ∧ ∃ r ∈ parts k, grant r = false) → Q false ∅) :
    wp (initLocks grant n i) Q (held 0 i) := by
  induction n generalizing i with
  | zero =>
    unfold initLocks
    rw [wp_pure]
    exact hall fun k hk hlt => by omega
  | succ n ih =>
    unfold initLocks
    rw [wp_bind]
    apply wp_rwlock_init fun r hr => parts_not_mem_held hr (Or.inr (Nat.le_refl i))
    · intro hgranted
      show wp (if i + 1 < 2 ^ 31 then initLocks grant n (i + 1) else _) Q _
      rw [if_pos (by omega), held_succ (Nat.zero_le i)]
      apply ih (by omega)
      · intro hrest
        rw [show i + 1 + n = i + (n + 1) by omega]
        apply hall
        intro k hk hlt
        rcases Nat.eq_or_lt_of_le hk with rfl | hgt
        · exact hgranted
        · exact hrest k hgt (by omega)
      · rintro ⟨k, hk, hlt, hr⟩
        exact hsome ⟨k, by omega, by omega, hr⟩
    · intro hrefused
      show wp (do destroyBefore i 0; _) Q _
      rw [wp_bind]
      have hi : held 0 i = held 0 (0 + i) := by rw [Nat.zero_add]
      rw [hi]
      apply wp_destroyBefore
      apply wp_freeArrays
      rw [wp_pure]
      exact hsome ⟨i, Nat.le_refl i, by omega, hrefused⟩

/-- The loop of `hash_destroy` ends at the first lock that refuses, or gives back everything. -/
theorem wp_destroyLocks {Q : ℤ → Finset Resource → Prop} {rws : ℕ → Rwlock.Lock} (hint : j + n < 2 ^ 31)
    (hnone : (∀ k, j ≤ k → k < j + n → ¬ Refuses (rws k)) → Q 0 ∅)
    (hsome : ∀ k, j ≤ k → k < j + n → Refuses (rws k) → (∀ l, j ≤ l → l < k → ¬ Refuses (rws l)) →
      Q (-1) (held k (j + n))) : wp (destroyLocks rws n j) Q (held j (j + n)) := by
  induction n generalizing j with
  | zero =>
    unfold destroyLocks
    apply wp_freeArrays
    rw [wp_pure]
    exact hnone fun k hk hlt => by omega
  | succ n ih =>
    unfold destroyLocks
    rw [wp_bind]
    apply wp_rwlock_destroy (parts_subset_held (Nat.le_refl j) (by omega))
    · intro hj
      have hfirst (k : ℕ) (hk : j ≤ k) (hrest : j + 1 ≤ k → ¬ Refuses (rws k)) : ¬ Refuses (rws k) := by
        rcases Nat.eq_or_lt_of_le hk with rfl | hgt
        · exact hj
        · exact hrest hgt
      show wp (if j + 1 < 2 ^ 31 then destroyLocks rws n (j + 1) else _) Q _
      rw [if_pos (by omega), held_sdiff (by omega), show j + (n + 1) = j + 1 + n by omega]
      apply ih (by omega)
      · intro hrest
        exact hnone fun k hk hlt => hfirst k hk fun hgt => hrest k hgt (by omega)
      · intro k hk hlt hrefuses hbefore
        rw [show j + 1 + n = j + (n + 1) by omega]
        exact hsome k (by omega) (by omega) hrefuses
          fun l hl hlk => hfirst l hl fun hgt => hbefore l hgt hlk
    · intro hrefuses
      show wp (pure (-1)) Q _
      rw [wp_pure]
      exact hsome j (Nat.le_refl j) (by omega) hrefuses fun l hl hlj => by omega

/-! ### The whole functions -/

theorem forall_held_iff {hash_size : ℕ} : (∀ r ∈ held 0 hash_size, grant r = true) ↔
    (grant table = true ∧ grant buckets = true ∧ grant locks = true ∧ grant bucket_sizes = true) ∧
      ∀ k, 0 ≤ k → k < 0 + hash_size → ∀ r ∈ parts k, grant r = true := by
  constructor
  · intro h
    refine ⟨⟨h _ (by simp), h _ (by simp), h _ (by simp), h _ (by simp)⟩, fun k h₀ hk r hr => ?_⟩
    exact h r (parts_subset_held h₀ (by omega) hr)
  · rintro ⟨⟨ht, hb, hl, hs⟩, hparts⟩ r hr
    cases r with
    | table => exact ht
    | buckets => exact hb
    | locks => exact hl
    | bucket_sizes => exact hs
    | mutex i =>
      have hi := mutex_mem_held.mp hr
      exact hparts i hi.1 (by omega) _ (by simp [parts])
    | uctx i =>
      have hi := uctx_mem_held.mp hr
      exact hparts i hi.1 (by omega) _ (by simp [parts])
    | cv i =>
      have hi := cv_mem_held.mp hr
      exact hparts i hi.1 (by omega) _ (by simp [parts])

/-- `hash_init` returns a table if it is granted everything, and keeps nothing otherwise. -/
theorem wp_hash_init {Q : Bool → Finset Resource → Prop} {hash_size : ℕ} (hint : hash_size < 2 ^ 31)
    (hall : (∀ r ∈ held 0 hash_size, grant r = true) → Q true (held 0 hash_size))
    (hsome : (¬ ∀ r ∈ held 0 hash_size, grant r = true) → Q false ∅) :
    wp (hash_init grant hash_size) Q ∅ := by
  have hfail {r : Resource} (hr : grant r = false) (hmem : r ∈ held 0 hash_size) : Q false ∅ := by
    apply hsome
    intro h
    rw [h r hmem] at hr
    cases hr
  unfold hash_init
  apply wp_request (by simp)
  · intro ht
    apply wp_request (by simp)
    · intro hb
      apply wp_request (by simp)
      · intro hl
        apply wp_request (by simp)
        · intro hs
          have hstart : insert bucket_sizes (insert locks (insert buckets (insert table ∅))) = held 0 0 := by
            rw [held_self]
            decide
          rw [hstart]
          apply wp_initLocks (by omega)
          · intro hparts
            rw [Nat.zero_add]
            exact hall (forall_held_iff.mpr ⟨⟨ht, hb, hl, hs⟩, hparts⟩)
          · rintro ⟨k, h₀, hk, r, hr, hrefused⟩
            exact hfail hrefused (parts_subset_held h₀ (by omega) hr)
        · intro hs
          rw [wp_bind]
          apply wp_release (by simp)
          rw [wp_bind]
          apply wp_release (by simp)
          rw [wp_bind]
          apply wp_release (by simp)
          rw [wp_pure]
          exact hfail hs (by simp)
      · intro hl
        rw [wp_bind]
        apply wp_release (by simp)
        rw [wp_bind]
        apply wp_release (by simp)
        rw [wp_pure]
        exact hfail hl (by simp)
    · intro hb
      rw [wp_bind]
      apply wp_release (by simp)
      rw [wp_pure]
      exact hfail hb (by simp)
  · intro ht
    rw [wp_pure]
    exact hfail ht (by simp)

/-! ### The ledger and the table -/

/-- The loop of `Hashtable.hash_init` ends with a table if every lock is initialized. -/
theorem initFrom_isSome {lock_init : ℕ → Bool} {hash_size : ℕ} (hint : hash_size < 2 ^ 31) {T : Table} :
    (initFrom hash_size lock_init i T).map Option.isSome
      = some (decide (∀ k, i ≤ k → k < hash_size → lock_init k = true)) := by
  induction hn : hash_size - i generalizing i T with
  | zero =>
    rw [initFrom, if_neg (by omega)]
    have hall : ∀ k, i ≤ k → k < hash_size → lock_init k = true := fun k hk hlt => by omega
    rw [decide_eq_true hall]
    rfl
  | succ n ih =>
    rw [initFrom, if_pos (by omega)]
    cases hlock : lock_init i with
    | false =>
      have hnot : ¬ ∀ k, i ≤ k → k < hash_size → lock_init k = true := by
        intro h
        rw [h i (Nat.le_refl i) (by omega)] at hlock
        cases hlock
      simp only [if_true, Option.map_some, Option.isSome_none, decide_eq_false hnot]
    | true =>
      rw [if_neg (by decide), if_pos (by omega), ih (by omega)]
      congr 2
      rw [eq_iff_iff]
      constructor
      · intro h k hk hlt
        rcases Nat.eq_or_lt_of_le hk with rfl | hgt
        · exact hlock
        · exact h k hgt hlt
      · exact fun h k hk hlt => h k (by omega) hlt

theorem hash_init_isSome {hash_size : ℕ} (hint : hash_size < 2 ^ 31) :
    (Hashtable.hash_init hash_size (grant table && grant buckets && grant locks && grant bucket_sizes)
      (fun i => decide (∀ r ∈ parts i, grant r = true))).map Option.isSome
        = some (decide (∀ r ∈ held 0 hash_size, grant r = true)) := by
  have hheld : (∀ r ∈ held 0 hash_size, grant r = true) ↔ _ := forall_held_iff
  cases hm : (grant table && grant buckets && grant locks && grant bucket_sizes) with
  | false =>
    have hnot : ¬ ∀ r ∈ held 0 hash_size, grant r = true := by
      intro h
      obtain ⟨⟨ht, hb, hl, hs⟩, -⟩ := hheld.mp h
      rw [ht, hb, hl, hs] at hm
      cases hm
    rw [decide_eq_false hnot]
    rfl
  | true =>
    have harrays : grant table = true ∧ grant buckets = true ∧ grant locks = true ∧
        grant bucket_sizes = true := by
      simpa only [Bool.and_eq_true, and_assoc] using hm
    show ((initFrom hash_size _ 0 Table.init).map (Option.map _)).map Option.isSome = _
    rw [Option.map_map, show (Option.isSome ∘ Option.map _ : Option Table → Bool) = Option.isSome from
      funext fun o => Option.isSome_map, initFrom_isSome hint]
    congr 2
    rw [eq_iff_iff, hheld, and_iff_right harrays]
    simp only [decide_eq_true_iff, Nat.zero_add]

/-- **`hash_init` gets everything or keeps nothing**, whatever it is refused, and it returns a table where
`Hashtable.hash_init` does. -/
theorem hash_init_all_or_nothing (grant : Resource → Bool) (hash_size : ℕ) (hint : hash_size < 2 ^ 31) :
    wp (hash_init grant hash_size) (fun b live =>
      (b = true ↔ ∀ r ∈ held 0 hash_size, grant r = true) ∧
      live = (if b then held 0 hash_size else ∅) ∧
      (Hashtable.hash_init hash_size
        (grant table && grant buckets && grant locks && grant bucket_sizes)
        (fun i => decide (∀ r ∈ parts i, grant r = true))).map Option.isSome = some b) ∅ := by
  apply wp_hash_init hint
  · intro hall
    refine ⟨iff_of_true rfl hall, rfl, ?_⟩
    rw [hash_init_isSome hint, decide_eq_true hall]
  · intro hnot
    refine ⟨iff_of_false (by decide) hnot, rfl, ?_⟩
    rw [hash_init_isSome hint, decide_eq_false hnot]

/-- The condition variable of the second bucket is refused, and the first lock is destroyed again. -/
theorem hash_init_all_or_nothing_cv :
    wp (hash_init (fun r => decide (r ≠ cv 1)) 2) (fun b live =>
      (b = true ↔ ∀ r ∈ held 0 2, decide (r ≠ cv 1) = true) ∧
      live = (if b then held 0 2 else ∅) ∧
      (Hashtable.hash_init 2
        (decide (table ≠ cv 1) && decide (buckets ≠ cv 1) && decide (locks ≠ cv 1) &&
          decide (bucket_sizes ≠ cv 1))
        (fun i => decide (∀ r ∈ parts i, decide (r ≠ cv 1) = true))).map Option.isSome = some b) ∅ :=
  hash_init_all_or_nothing (fun r => decide (r ≠ cv 1)) 2 (by decide)

section Destroy

variable {fuel hash_size : ℕ} {m : Map} {T : Table} {xs : ℤ → List (Ptr × Entry)}

/-- A lock that is not destroyed keeps its parts. -/
theorem mem_held_iff {rws : ℤ → Rwlock.Lock} {k : ℕ} {x : Resource} (hi : i < hash_size)
    (hx : x ∈ parts i) : x ∈ held k hash_size ↔ locksFrom rws k i ≠ none := by
  have hmem : x ∈ held k hash_size ↔ k ≤ i ∧ i < hash_size := by
    simp only [parts, Finset.mem_insert, Finset.mem_singleton] at hx
    rcases hx with rfl | rfl | rfl <;> simp
  rw [hmem]
  unfold locksFrom
  split_ifs with hbefore
  · exact iff_of_false (by omega) fun hne => hne rfl
  · exact iff_of_true (by omega) (Option.some_ne_none _)

/-- **`hash_destroy` gives back what it destroys, and nothing twice**: the locks before the first one that
refuses, or everything. -/
theorem hash_destroy_gives_back (h : Holds hash_size m T xs) (hsize : hash_size < 2 ^ 31)
    (rws : ℤ → Rwlock.Lock) (hfuel : ∀ i : ℤ, 0 ≤ i → i < hash_size → (xs i).length ≤ fuel) :
    ∃ r, Hashtable.hash_destroy fuel hash_size T rws = some r ∧
      wp (hash_destroy (fun i => rws i) hash_size) (fun code live =>
        code = r.code ∧ (r.freed = true ↔ live = ∅) ∧
        (r.freed = false → ∀ x ∈ held 0 0, x ∈ live) ∧
        ∀ i : ℕ, i < hash_size → ∀ x ∈ parts i, x ∈ live ↔ r.locks i ≠ none) (held 0 hash_size) := by
  have hstart : held 0 hash_size = held 0 (0 + hash_size) := by rw [Nat.zero_add]
  rcases hash_destroy_cases h hsize rws hfuel with ⟨k, hk, hrefuses, hbefore, hrun⟩ | ⟨hnone, hrun⟩
  · refine ⟨_, hrun, ?_⟩
    rw [hstart]
    apply wp_destroyLocks (by omega)
    · intro hnone
      exact absurd hrefuses (hnone k (Nat.zero_le k) (by omega))
    · intro k' _ hk' hrefuses' hbefore'
      have hfirst : k' = k := by
        rcases Nat.lt_trichotomy k' k with hlt | heq | hgt
        · exact absurd hrefuses' (hbefore k' hlt)
        · exact heq
        · exact absurd hrefuses (hbefore' k (Nat.zero_le k) hgt)
      rw [hfirst, Nat.zero_add]
      refine ⟨rfl, ?_, fun _ x hx => ?_, fun i hi x hx => mem_held_iff hi hx⟩
      · refine iff_of_false (by rintro ⟨⟩) fun hempty => ?_
        have htable : table ∈ held k hash_size := table_mem_held
        rw [hempty] at htable
        cases htable
      · exact held_self_subset hx
  · refine ⟨_, hrun, ?_⟩
    rw [hstart]
    apply wp_destroyLocks (by omega)
    · intro _
      refine ⟨rfl, iff_of_true rfl rfl, by rintro ⟨⟩, fun i hi x _ => ?_⟩
      have hgone : locksFrom rws hash_size i = none := if_pos (by omega)
      exact iff_of_false (Finset.notMem_empty x) fun hkept => hkept hgone
    · intro k _ hk hrefuses _
      exact absurd hrefuses (hnone k (by omega))

/-- A table with one entry, whose lock is in use. -/
theorem hash_destroy_gives_back_inUse : ∃ r, Hashtable.hash_destroy 1 1 oneEntry (fun _ => inUse) = some r ∧
    wp (hash_destroy (fun _ => inUse) 1) (fun code live =>
      code = r.code ∧ (r.freed = true ↔ live = ∅) ∧
      (r.freed = false → ∀ x ∈ held 0 0, x ∈ live) ∧
      ∀ i : ℕ, i < 1 → ∀ x ∈ parts i, x ∈ live ↔ r.locks i ≠ none) (held 0 1) :=
  hash_destroy_gives_back holds_oneEntry (by decide) (fun _ => inUse) fun _ _ _ => Nat.le_refl 1

end Destroy

end SystemProgramming.Hashtable.Resources
