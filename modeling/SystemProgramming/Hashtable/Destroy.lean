import SystemProgramming.Hashtable.Refinement
import SystemProgramming.Rwlock.Destroy

/-!
# Destroying a table

`hash_destroy` frees the chain of each bucket and then destroys the lock of the bucket; the first lock that
refuses ends it.  By then the chains up to that bucket are gone, and the locks before it
(`destroyFrom_cases`), so a failure leaves the table as it was only where the lock of the first bucket
refuses and that bucket is empty (`hash_destroy_all_or_nothing`).

* `destroyFrom_cases`: the loop ends at the first lock that refuses.
* `hash_destroy_all_or_nothing`: when `hash_destroy` is all or nothing.
* `hash_destroy_all_or_nothing_fails`: a table that is destroyed in part.
-/

namespace SystemProgramming.Hashtable

open Function

/-- The lock is refused by `rwlock_destroy`. -/
def Refuses (u : Rwlock.Lock) : Prop := (Rwlock.rwlockDestroy u).code ≠ 0

/-- What a call of `hash_destroy` returns and leaves.  A lock is `none` once it has been destroyed;
`freed` says that the arrays and the table itself have been freed. -/
structure Destroyed where
  code : ℤ
  table : Table
  locks : ℤ → Option Rwlock.Lock
  freed : Bool

/-- `while (node)`: the key and the value are freed with their node.  `none` where a node is looked at that
is not there. -/
def freeChain : ℕ → Table → Option Ptr → Option Table
  | _, T, none => some T
  | 0, _, some _ => none
  | fuel + 1, T, some tmp => do
    let n ← T.nodes tmp
    freeChain fuel (T.setNode tmp none) n.next

/-- The loop of `hash_destroy` from the bucket `i` on.  `none` where a node or a lock is looked at that is
not there, and where `i`, an `int`, overflows. -/
def destroyFrom (fuel hash_size : ℕ) (i : ℕ) (T : Table) (locks : ℤ → Option Rwlock.Lock) :
    Option Destroyed :=
  if i < hash_size then do
    let T ← freeChain fuel T (T.buckets i)
    let rw ← locks i
    let r := Rwlock.rwlockDestroy rw
    if r.code ≠ 0 then some ⟨-1, T, update locks i r.lock, false⟩
    else if i + 1 < 2 ^ 31 then destroyFrom fuel hash_size (i + 1) T (update locks i r.lock)
    else none
  else some ⟨0, T, locks, true⟩
termination_by hash_size - i

/-- `hash_destroy(table)`; `fuel` bounds the length of a chain. -/
def hash_destroy (fuel hash_size : ℕ) (T : Table) (locks : ℤ → Rwlock.Lock) : Option Destroyed :=
  destroyFrom fuel hash_size 0 T fun i => some (locks i)

/-- Everything is as it was: every entry in its bucket, no node freed, every lock usable. -/
structure Untouched (hash_size : ℕ) (m : Map) (T : Table) (xs : ℤ → List (Ptr × Entry)) (r : Destroyed) :
    Prop where
  holds : Holds hash_size m r.table xs
  nodes : ∀ p, T.nodes p ≠ none → r.table.nodes p ≠ none
  locks : ∀ i : ℤ, 0 ≤ i → i < hash_size → r.locks i ≠ none

/-! ### One chain -/

/-- The nodes `ps` are freed. -/
def Table.freeAll (T : Table) (ps : List Ptr) : Table :=
  { T with nodes := fun p => if p ∈ ps then none else T.nodes p }

variable {T : Table} {xs : ℤ → List (Ptr × Entry)} {chain : List (Ptr × Entry)} {ps qs : List Ptr} {p : Ptr}
  {fuel hash_size : ℕ} {m : Map} {locks : ℤ → Rwlock.Lock}

theorem freeAll_nil (T : Table) : T.freeAll [] = T := by
  cases T
  simp [Table.freeAll]

theorem freeAll_freeAll (T : Table) (ps qs : List Ptr) :
    (T.freeAll ps).freeAll qs = T.freeAll (ps ++ qs) := by
  unfold Table.freeAll
  congr 1
  funext p
  by_cases hq : p ∈ qs
  · simp [hq]
  · simp [hq]

theorem setNode_freeAll (T : Table) (p : Ptr) (ps : List Ptr) :
    (T.setNode p none).freeAll ps = T.freeAll (p :: ps) := by
  unfold Table.freeAll Table.setNode
  congr 1
  funext q
  by_cases hq : q = p
  · simp [hq]
  · simp [hq]

/-- The loop over a chain frees its nodes. -/
theorem freeChain_eq (h : Segment T.nodes chain none) (hnd : (chain.map Prod.fst).Nodup)
    (hfuel : chain.length ≤ fuel) :
    freeChain fuel T (first chain none) = some (T.freeAll (chain.map Prod.fst)) := by
  induction chain generalizing T fuel with
  | nil =>
    rw [List.map_nil, freeAll_nil]
    cases fuel <;> rfl
  | cons x chain ih =>
    cases fuel with
    | zero => cases hfuel
    | succ fuel =>
      rw [List.map_cons, List.nodup_cons] at hnd
      have hrest : Segment (T.setNode x.1 none).nodes chain none := by
        apply h.2.congr
        intro y hy
        apply update_of_ne
        intro heq
        exact hnd.1 (heq ▸ List.mem_map_of_mem hy)
      show (T.nodes x.1).bind _ = _
      rw [h.1]
      refine (ih hrest hnd.2 (Nat.le_of_succ_le_succ hfuel)).trans ?_
      rw [setNode_freeAll]
      rfl

/-! ### The loop -/

/-- The nodes of the first `n` buckets. -/
def nodesBefore (xs : ℤ → List (Ptr × Entry)) (n : ℕ) : List Ptr :=
  (List.range n).flatMap fun j : ℕ => (xs j).map Prod.fst

/-- The first `n` locks are destroyed. -/
def locksFrom (locks : ℤ → Rwlock.Lock) (n : ℕ) : ℤ → Option Rwlock.Lock :=
  fun j => if 0 ≤ j ∧ j < n then none else some (locks j)

/-- The lock `k` refuses. -/
def stoppedAt (T : Table) (xs : ℤ → List (Ptr × Entry)) (locks : ℤ → Rwlock.Lock) (k : ℕ) : Destroyed :=
  ⟨-1, T.freeAll (nodesBefore xs (k + 1)), locksFrom locks k, false⟩

/-- No lock refuses. -/
def finished (T : Table) (xs : ℤ → List (Ptr × Entry)) (locks : ℤ → Rwlock.Lock) (n : ℕ) : Destroyed :=
  ⟨0, T.freeAll (nodesBefore xs n), locksFrom locks n, true⟩

theorem nodesBefore_succ (xs : ℤ → List (Ptr × Entry)) (n : ℕ) :
    nodesBefore xs (n + 1) = nodesBefore xs n ++ (xs n).map Prod.fst := by
  unfold nodesBefore
  rw [List.range_succ, List.flatMap_append, List.flatMap_singleton]

theorem locksFrom_self (locks : ℤ → Rwlock.Lock) (n : ℕ) : locksFrom locks n n = some (locks n) :=
  if_neg fun h => Int.lt_irrefl _ h.2

theorem update_locksFrom (locks : ℤ → Rwlock.Lock) (n : ℕ) :
    update (locksFrom locks n) n none = locksFrom locks (n + 1) := by
  funext j
  by_cases hj : j = n
  · rw [hj, update_self]
    exact (if_pos (by omega)).symm
  · rw [update_of_ne hj]
    unfold locksFrom
    congr 1
    rw [eq_iff_iff]
    omega

/-- One bucket: its chain is freed, and its lock is asked. -/
theorem destroyFrom_step (h : Holds hash_size m T xs) {i : ℕ} (hi : i < hash_size)
    (hfuel : (xs i).length ≤ fuel) :
    destroyFrom fuel hash_size i (T.freeAll (nodesBefore xs i)) (locksFrom locks i)
      = if (Rwlock.rwlockDestroy (locks i)).code ≠ 0 then some (stoppedAt T xs locks i)
        else if i + 1 < 2 ^ 31 then destroyFrom fuel hash_size (i + 1)
          (T.freeAll (nodesBefore xs (i + 1))) (locksFrom locks (i + 1))
        else none := by
  have hchain := h.chain i (by omega) (by omega)
  have hout : ∀ x ∈ xs i, x.1 ∉ nodesBefore xs i := by
    intro x hx hmem
    obtain ⟨j, hj, hfst⟩ := List.mem_flatMap.mp hmem
    have hlt := List.mem_range.mp hj
    exact h.apart j i (by omega) (by omega) (by omega) (by omega) (by omega) x.1 hfst
      (List.mem_map_of_mem hx)
  have hlinks : Segment (T.freeAll (nodesBefore xs i)).nodes (xs i) none :=
    hchain.links.congr fun x hx => if_neg (hout x hx)
  have hfree := freeChain_eq hlinks (h.distinct i (by omega) (by omega)) hfuel
  rw [freeAll_freeAll, ← nodesBefore_succ, ← hchain.head] at hfree
  have hbuckets : (T.freeAll (nodesBefore xs i)).buckets = T.buckets := rfl
  rw [destroyFrom, if_pos hi, hbuckets, hfree]
  show (locksFrom locks i i).bind _ = _
  rw [locksFrom_self]
  show (if (Rwlock.rwlockDestroy (locks i)).code ≠ 0 then _ else _) = _
  by_cases hrefuses : (Rwlock.rwlockDestroy (locks i)).code ≠ 0
  · rw [if_pos hrefuses, if_pos hrefuses, Rwlock.rwlockDestroy_busy hrefuses, ← locksFrom_self,
      update_eq_self]
    rfl
  · have hgone : (Rwlock.rwlockDestroy (locks i)).lock = none := by
      unfold Rwlock.rwlockDestroy at hrefuses ⊢
      split_ifs at hrefuses ⊢
      · exact absurd (show (-1 : ℤ) ≠ 0 by decide) hrefuses
      · rfl
    rw [if_neg hrefuses, if_neg hrefuses, hgone, update_locksFrom]

/-- **The loop ends at the first lock that refuses.** -/
theorem destroyFrom_cases (h : Holds hash_size m T xs) (hsize : hash_size < 2 ^ 31)
    (locks : ℤ → Rwlock.Lock) (hfuel : ∀ i : ℤ, 0 ≤ i → i < hash_size → (xs i).length ≤ fuel)
    {i : ℕ} (hi : i ≤ hash_size) :
    (∃ k, i ≤ k ∧ k < hash_size ∧ Refuses (locks k) ∧ (∀ j : ℕ, i ≤ j → j < k → ¬ Refuses (locks j)) ∧
      destroyFrom fuel hash_size i (T.freeAll (nodesBefore xs i)) (locksFrom locks i)
        = some (stoppedAt T xs locks k)) ∨
    ((∀ j : ℕ, i ≤ j → j < hash_size → ¬ Refuses (locks j)) ∧
      destroyFrom fuel hash_size i (T.freeAll (nodesBefore xs i)) (locksFrom locks i)
        = some (finished T xs locks hash_size)) := by
  induction hn : hash_size - i generalizing i with
  | zero =>
    right
    have heq : i = hash_size := by omega
    refine ⟨fun j _ _ => by omega, ?_⟩
    rw [destroyFrom, if_neg (by omega), heq]
    rfl
  | succ n ih =>
    have hlt : i < hash_size := by omega
    rw [destroyFrom_step h hlt (hfuel i (by omega) (by omega))]
    by_cases hrefuses : (Rwlock.rwlockDestroy (locks i)).code ≠ 0
    · rw [if_pos hrefuses]
      exact Or.inl ⟨i, Nat.le_refl i, hlt, hrefuses, fun j _ _ => by omega, rfl⟩
    · rw [if_neg hrefuses, if_pos (by omega)]
      have hfirst (j : ℕ) (hj : i ≤ j) (hrest : i + 1 ≤ j → ¬ Refuses (locks j)) : ¬ Refuses (locks j) := by
        rcases Nat.eq_or_lt_of_le hj with rfl | hlt
        · exact hrefuses
        · exact hrest hlt
      rcases ih (i := i + 1) (by omega) (by omega) with ⟨k, hk, hkn, hkr, hbefore, hrun⟩ | ⟨hnone, hrun⟩
      · left
        exact ⟨k, by omega, hkn, hkr, fun j hj hjk => hfirst j hj fun h => hbefore j h hjk, hrun⟩
      · right
        exact ⟨fun j hj hjn => hfirst j hj fun h => hnone j h hjn, hrun⟩

theorem hash_destroy_cases (h : Holds hash_size m T xs) (hsize : hash_size < 2 ^ 31)
    (locks : ℤ → Rwlock.Lock) (hfuel : ∀ i : ℤ, 0 ≤ i → i < hash_size → (xs i).length ≤ fuel) :
    (∃ k, k < hash_size ∧ Refuses (locks k) ∧ (∀ j : ℕ, j < k → ¬ Refuses (locks j)) ∧
      hash_destroy fuel hash_size T locks = some (stoppedAt T xs locks k)) ∨
    ((∀ j : ℕ, j < hash_size → ¬ Refuses (locks j)) ∧
      hash_destroy fuel hash_size T locks = some (finished T xs locks hash_size)) := by
  have hlocks : locksFrom locks 0 = fun i => some (locks i) := by
    funext i
    exact if_neg (by omega)
  have htable : T.freeAll (nodesBefore xs 0) = T := freeAll_nil T
  have hcases := destroyFrom_cases h hsize locks hfuel (Nat.zero_le hash_size)
  rw [hlocks, htable] at hcases
  rcases hcases with ⟨k, -, hk, hrefuses, hbefore, hrun⟩ | ⟨hnone, hrun⟩
  · exact Or.inl ⟨k, hk, hrefuses, fun j hj => hbefore j (Nat.zero_le j) hj, hrun⟩
  · exact Or.inr ⟨fun j hj => hnone j (Nat.zero_le j) hj, hrun⟩

/-! ### All or nothing -/

/-- A failure leaves everything as it was only at an empty first bucket. -/
theorem untouched_stoppedAt (h : Holds hash_size m T xs) {k : ℕ} (hk : k < hash_size) :
    Untouched hash_size m T xs (stoppedAt T xs locks k) ↔ k = 0 ∧ xs 0 = [] := by
  constructor
  · intro hr
    have hzero : k = 0 := by
      by_contra hne
      apply hr.locks 0 (Int.le_refl 0) (by omega)
      exact if_pos (by omega)
    refine ⟨hzero, ?_⟩
    cases hxs : xs 0 with
    | nil => rfl
    | cons x chain =>
      have hmem : x ∈ xs 0 := by simp [hxs]
      have hnode := (h.chain 0 (Int.le_refl 0) (by omega)).links.allocated hmem
      refine absurd ?_ (hr.nodes x.1 hnode)
      apply if_pos
      rw [hzero, nodesBefore_succ]
      exact List.mem_append_right _ (List.mem_map_of_mem hmem)
  · rintro ⟨rfl, hxs⟩
    have hnone : nodesBefore xs 1 = [] := by
      rw [nodesBefore_succ]
      show [] ++ (xs 0).map Prod.fst = []
      rw [hxs]
      rfl
    have htable : (stoppedAt T xs locks 0).table = T := by
      show T.freeAll (nodesBefore xs 1) = T
      rw [hnone, freeAll_nil]
    constructor
    · rwa [htable]
    · rw [htable]
      exact fun p hp => hp
    · intro i _ _
      have hkept : locksFrom locks 0 i = some (locks i) := if_neg (by omega)
      show locksFrom locks 0 i ≠ none
      rw [hkept]
      exact Option.some_ne_none _

/-- **`hash_destroy` is all or nothing** if and only if no lock refuses to be destroyed, or that of the first
bucket does and the bucket is empty. -/
theorem hash_destroy_all_or_nothing (h : Holds hash_size m T xs) (hsize : hash_size < 2 ^ 31)
    (locks : ℤ → Rwlock.Lock) (hfuel : ∀ i : ℤ, 0 ≤ i → i < hash_size → (xs i).length ≤ fuel) :
    ∃ r, hash_destroy fuel hash_size T locks = some r ∧
      ((r.code = -1 → Untouched hash_size m T xs r) ↔
        ∀ i : ℤ, 0 ≤ i → i < hash_size → Refuses (locks i) → Refuses (locks 0) ∧ xs 0 = []) := by
  rcases hash_destroy_cases h hsize locks hfuel with ⟨k, hk, hrefuses, hbefore, hrun⟩ | ⟨hnone, hrun⟩
  · refine ⟨_, hrun, ?_⟩
    have hcode : (stoppedAt T xs locks k).code = -1 := rfl
    rw [forall_prop_of_true hcode, untouched_stoppedAt h hk]
    constructor
    · rintro ⟨rfl, hempty⟩
      exact fun _ _ _ _ => ⟨hrefuses, hempty⟩
    · intro hall
      obtain ⟨hzero, hempty⟩ := hall k (by omega) (by omega) hrefuses
      refine ⟨?_, hempty⟩
      by_contra hne
      exact hbefore 0 (by omega) hzero
  · refine ⟨_, hrun, ?_⟩
    apply iff_of_true
    · intro hcode
      cases hcode
    · intro i h₀ hi hrefuses
      obtain ⟨n, rfl⟩ := Int.eq_ofNat_of_zero_le h₀
      exact absurd hrefuses (hnone n (by omega))

section Sample

/-- A table with one bucket, that holds the empty key with the empty value in the node 0. -/
def oneEntry : Table :=
  ⟨fun p => if p = 0 then some ((Entry.new [] []).node none) else none, fun _ => some 0, fun _ => 1⟩

def oneChain : ℤ → List (Ptr × Entry) := fun _ => [(0, Entry.new [] [])]

theorem holds_oneEntry : Holds 1 (lookup [Entry.new [] []]) oneEntry oneChain where
  chain _ _ _ := ⟨rfl, rfl, trivial⟩
  proper i h₀ hi := by
    have hzero : i = 0 := by omega
    rw [hzero]
    have hhash := hash_bounds [] (le_refl 1) (by decide)
    refine ⟨List.nodup_singleton _, ?_, ?_⟩
    · intro e he
      rw [List.mem_singleton.mp he]
      show hash [] 1 = 0
      omega
    · intro e he
      rw [List.mem_singleton.mp he]
      rfl
  size _ _ _ := rfl
  apart i j h₀ hi h₀' hj hne := by omega
  distinct _ _ _ := List.nodup_singleton _
  contents _ := rfl

/-- A lock that a reader holds. -/
def inUse : Rwlock.Lock := ⟨1, 0, 0, 0, 0, 0, fun _ => .none, fun _ => -1⟩

/-- The reader keeps its lock, and the entry is freed. -/
theorem hash_destroy_all_or_nothing_fails : Holds 1 (lookup [Entry.new [] []]) oneEntry oneChain ∧
    ∃ r, hash_destroy 1 1 oneEntry (fun _ => inUse) = some r ∧ r.code = -1 ∧
      ¬ Untouched 1 (lookup [Entry.new [] []]) oneEntry oneChain r := by
  have hrefuses : Refuses inUse := by
    show (Rwlock.rwlockDestroy inUse).code ≠ 0
    decide
  rcases hash_destroy_cases holds_oneEntry (by decide) (fun _ => inUse) fun _ _ _ => Nat.le_refl 1 with
    ⟨k, hk, -, -, hrun⟩ | ⟨hnone, -⟩
  · refine ⟨holds_oneEntry, _, hrun, rfl, fun hr => ?_⟩
    cases ((untouched_stoppedAt holds_oneEntry hk).mp hr).2
  · exact absurd hrefuses (hnone 0 Nat.zero_lt_one)

/-- The table with its lock in use. -/
theorem hash_destroy_all_or_nothing_inUse : ∃ r, hash_destroy 1 1 oneEntry (fun _ => inUse) = some r ∧
    ((r.code = -1 → Untouched 1 (lookup [Entry.new [] []]) oneEntry oneChain r) ↔
      ∀ i : ℤ, 0 ≤ i → i < (1 : ℕ) → Refuses inUse → Refuses inUse ∧ oneChain 0 = []) :=
  hash_destroy_all_or_nothing holds_oneEntry (by decide) (fun _ => inUse) fun _ _ _ => Nat.le_refl 1

end Sample

end SystemProgramming.Hashtable
