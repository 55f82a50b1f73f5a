import SystemProgramming.Hashtable.Leaks
import Mathlib.Algebra.Ring.Int.Defs

/-!
# `hash_dump`

The dump of a table that no call is changing: the number of entries, then each bucket that is not empty with
the state of its lock and its entries.  Every entry of the map is printed, once, and nothing else is
(`hash_dump_exact`).  What the lock says about its readers and writers is a parameter.

* `hash_dump_exact`: the pairs of the dump are those of the map, each of them once.
-/

namespace SystemProgramming.Hashtable

open Function

/-- A line of the dump, with the arguments of its format. -/
inductive Dumped where
  | total (total_entries : ℤ)
  | bucket (i : ℕ) (size : ℤ)
  | lockState (readers writers : ℤ)
  | pair (key value : Str)
  | finish
  deriving DecidableEq

section Source

variable (rwlock_current_readers rwlock_current_writers : ℤ → ℤ)

/-- `while (node)`: the pairs of a chain.  `none` where a node is looked at that is not there. -/
def dumpChain : ℕ → Table → Option Ptr → Option (List Dumped)
  | _, _, none => some []
  | 0, _, some _ => none
  | fuel + 1, T, some node => do
    let n ← T.nodes node
    let key ← n.key
    let value ← n.value
    let rest ← dumpChain fuel T n.next
    some (.pair key value :: rest)

/-- One round of the loop over the buckets. -/
def dumpBucket (fuel : ℕ) (T : Table) (i : ℕ) : Option (List Dumped) :=
  if T.bucket_sizes i = 0 then some []
  else do
    let pairs ← dumpChain fuel T (T.buckets i)
    some (.bucket i (T.bucket_sizes i)
      :: .lockState (rwlock_current_readers i) (rwlock_current_writers i) :: pairs)

/-- The loop over the buckets, from `i` on. -/
def dumpFrom (fuel : ℕ) (T : Table) : ℕ → ℕ → Option (List Dumped)
  | 0, _ => some []
  | buckets + 1, i => do
    let lines ← dumpBucket rwlock_current_readers rwlock_current_writers fuel T i
    let rest ← dumpFrom fuel T buckets (i + 1)
    some (lines ++ rest)

/-- `hash_dump(table)`; `fuel` bounds the length of a chain. -/
def hash_dump (fuel hash_size : ℕ) (T : Table) : Option (List Dumped) := do
  let total_entries := ((List.range hash_size).map fun i : ℕ => T.bucket_sizes i).sum
  let lines ← dumpFrom rwlock_current_readers rwlock_current_writers fuel T hash_size 0
  some (.total total_entries :: (lines ++ [.finish]))

end Source

/-! ### The pairs of a dump -/

/-- The pair of a line. -/
def Dumped.pair? : Dumped → Option (Str × Str)
  | pair key value => some (key, value)
  | _ => none

/-- The pairs of some lines. -/
def pairs (lines : List Dumped) : List (Str × Str) := lines.filterMap Dumped.pair?

theorem pairs_append (ls ms : List Dumped) : pairs (ls ++ ms) = pairs ls ++ pairs ms :=
  List.filterMap_append

def Entry.pair (e : Entry) : Str × Str := (e.key, e.value)

variable {rwlock_current_readers rwlock_current_writers : ℤ → ℤ} {fuel hash_size : ℕ} {T : Table}
  {m : Map} {xs : ℤ → List (Ptr × Entry)} {chain : List (Ptr × Entry)}

/-- The loop over a chain prints its entries. -/
theorem dumpChain_eq (h : Segment T.nodes chain none) (hfuel : chain.length ≤ fuel) :
    dumpChain fuel T (first chain none)
      = some ((entries chain).map fun e => .pair e.key e.value) := by
  induction chain generalizing fuel with
  | nil => cases fuel <;> rfl
  | cons x chain ih =>
    cases fuel with
    | zero => cases hfuel
    | succ fuel =>
      show (T.nodes x.1).bind _ = _
      rw [h.1]
      show (dumpChain fuel T (first chain none)).bind _ = _
      rw [ih h.2 (Nat.le_of_succ_le_succ hfuel)]
      rfl

/-- A bucket is left out only when it is empty, so its pairs are those of its entries. -/
theorem dumpBucket_pairs (h : Holds hash_size m T xs) {i : ℕ} (hi : i < hash_size)
    (hfuel : (xs i).length ≤ fuel) :
    ∃ lines, dumpBucket rwlock_current_readers rwlock_current_writers fuel T i = some lines ∧
      pairs lines = (entries (xs i)).map Entry.pair := by
  have hchain := h.chain i (by omega) (by omega)
  unfold dumpBucket
  rw [h.size i (by omega) (by omega), hchain.head, dumpChain_eq hchain.links hfuel]
  split_ifs with hempty
  · have hnil : xs i = [] := List.length_eq_zero_iff.mp (by omega)
    refine ⟨[], rfl, ?_⟩
    rw [hnil]
    rfl
  · refine ⟨_, rfl, ?_⟩
    show ((entries (xs i)).map _).filterMap Dumped.pair? = _
    rw [List.filterMap_map]
    exact congrFun (List.filterMap_eq_map (f := Entry.pair)) _

/-- The entries of the buckets from `i` on. -/
def entriesFrom (xs : ℤ → List (Ptr × Entry)) (i n : ℕ) : List Entry :=
  (List.range' i n).flatMap fun j : ℕ => entries (xs j)

theorem dumpFrom_pairs (h : Holds hash_size m T xs)
    (hfuel : ∀ i : ℤ, 0 ≤ i → i < hash_size → (xs i).length ≤ fuel) {i n : ℕ} (hn : i + n ≤ hash_size) :
    ∃ lines, dumpFrom rwlock_current_readers rwlock_current_writers fuel T n i = some lines ∧
      pairs lines = (entriesFrom xs i n).map Entry.pair := by
  induction n generalizing i with
  | zero => exact ⟨[], rfl, rfl⟩
  | succ n ih =>
    obtain ⟨lines, hlines, hpairs⟩ := dumpBucket_pairs (i := i) h (by omega)
      (hfuel i (by omega) (by omega))
    obtain ⟨rest, hrest, hpairs'⟩ := ih (i := i + 1) (by omega)
    refine ⟨lines ++ rest, ?_, ?_⟩
    · unfold dumpFrom
      rw [hlines, hrest]
      rfl
    · rw [pairs_append, hpairs, hpairs', ← List.map_append]
      rfl

/-! ### What is dumped is the map -/

theorem entriesFrom_zero (xs : ℤ → List (Ptr × Entry)) (n : ℕ) :
    entriesFrom xs 0 n = (List.range n).flatMap fun j : ℕ => entries (xs j) := by
  rw [entriesFrom, ← List.range_eq_range']

theorem mem_entriesFrom {n : ℕ} {e : Entry} :
    e ∈ entriesFrom xs 0 n ↔ ∃ j : ℕ, j < n ∧ e ∈ entries (xs j) := by
  rw [entriesFrom_zero]
  simp only [List.mem_flatMap, List.mem_range]

/-- The entries of the table are those of the map. -/
theorem Holds.mem_pairs (h : Holds hash_size m T xs) (hpos : 1 ≤ hash_size) (hsize : hash_size ≤ 2 ^ 31)
    (key value : Str) :
    (key, value) ∈ (entriesFrom xs 0 hash_size).map Entry.pair ↔ m key = some value := by
  obtain ⟨h₀, hlt⟩ := hash_bounds key hpos hsize
  have hmap : m key = some value ↔
      ∃ e ∈ entries (xs (hash key hash_size)), e.key = key ∧ e.value = value := by
    rw [h.contents key, lookup, Option.map_eq_some_iff]
    constructor
    · rintro ⟨e, he, hvalue⟩
      have hkey : e.key = key := by simpa using List.find?_some he
      exact ⟨e, List.mem_of_find?_eq_some he, hkey, hvalue⟩
    · rintro ⟨e, he, hkey, hvalue⟩
      obtain ⟨l, r, hsplit⟩ := List.append_of_mem he
      have hproper := h.proper _ h₀ hlt
      rw [hsplit] at hproper ⊢
      have hbefore : ∀ d ∈ l, d.key ≠ key := by
        intro d hd heq
        have hnd := hproper.nodup
        rw [List.map_append] at hnd
        exact (List.nodup_append.mp hnd).2.2 d.key (List.mem_map_of_mem hd) e.key
          (List.mem_map_of_mem List.mem_cons_self) (heq.trans hkey.symm)
      exact ⟨e, find_split hbefore hkey, hvalue⟩
  rw [hmap]
  constructor
  · intro hmem
    obtain ⟨e, he, hpair⟩ := List.mem_map.mp hmem
    obtain ⟨j, hj, he⟩ := mem_entriesFrom.mp he
    cases hpair
    have hhash := (h.proper j (by omega) (by omega)).hashed e he
    exact ⟨e, by rw [hhash]; exact he, rfl, rfl⟩
  · rintro ⟨e, he, rfl, rfl⟩
    obtain ⟨j, hj⟩ := Int.eq_ofNat_of_zero_le h₀
    rw [hj] at he
    exact List.mem_map_of_mem (mem_entriesFrom.mpr ⟨j, by omega, he⟩)

/-- No key is in two entries of the table. -/
theorem Holds.keys_nodup (h : Holds hash_size m T xs) :
    ((entriesFrom xs 0 hash_size).map Entry.key).Nodup := by
  rw [entriesFrom_zero, List.map_flatMap, List.nodup_flatMap]
  constructor
  · intro j hj
    have hlt := List.mem_range.mp hj
    exact (h.proper j (by omega) (by omega)).nodup
  · apply List.Nodup.pairwise_of_forall_ne List.nodup_range
    intro i hi j hj hne key hkey hkey'
    have hlt := List.mem_range.mp hi
    have hlt' := List.mem_range.mp hj
    obtain ⟨e, he, rfl⟩ := List.mem_map.mp hkey
    obtain ⟨d, hd, heq⟩ := List.mem_map.mp hkey'
    have hhash := (h.proper i (by omega) (by omega)).hashed e he
    have hhash' := (h.proper j (by omega) (by omega)).hashed d hd
    rw [heq, hhash] at hhash'
    exact hne (by omega)

/-- The sizes of the buckets add up to the number of entries. -/
theorem Holds.total (h : Holds hash_size m T xs) :
    ((List.range hash_size).map fun i : ℕ => T.bucket_sizes i).sum
      = (entriesFrom xs 0 hash_size).length := by
  have hsum : ∀ is : List ℕ, (∀ i ∈ is, i < hash_size) →
      (is.map fun i : ℕ => T.bucket_sizes i).sum
        = ((is.flatMap fun j : ℕ => entries (xs j)).length : ℤ) := by
    intro is his
    induction is with
    | nil => rfl
    | cons i is ih =>
      have hi := his i List.mem_cons_self
      rw [List.map_cons, List.sum_cons, List.flatMap_cons, List.length_append, length_entries,
        h.size i (by omega) (by omega), ih fun j hj => his j (List.mem_cons_of_mem i hj)]
      omega
  rw [entriesFrom_zero]
  exact hsum _ fun i hi => List.mem_range.mp hi

/-- **The dump is the map**: its pairs are those of the map, no key is printed twice, and the number in its first
line is how many they are. -/
theorem hash_dump_exact (rwlock_current_readers rwlock_current_writers : ℤ → ℤ)
    (h : Holds hash_size m T xs) (hpos : 1 ≤ hash_size) (hsize : hash_size ≤ 2 ^ 31)
    (hfuel : ∀ i : ℤ, 0 ≤ i → i < hash_size → (xs i).length ≤ fuel) :
    ∃ lines, hash_dump rwlock_current_readers rwlock_current_writers fuel hash_size T = some lines ∧
      (∀ key value, (key, value) ∈ pairs lines ↔ m key = some value) ∧
      ((pairs lines).map Prod.fst).Nodup ∧ lines.head? = some (.total (pairs lines).length) := by
  obtain ⟨lines, hlines, hpairs⟩ : ∃ lines,
      dumpFrom rwlock_current_readers rwlock_current_writers fuel T hash_size 0 = some lines ∧
        pairs lines = (entriesFrom xs 0 hash_size).map Entry.pair :=
    dumpFrom_pairs h hfuel (by omega)
  have hdump : hash_dump rwlock_current_readers rwlock_current_writers fuel hash_size T
      = some (.total (entriesFrom xs 0 hash_size).length :: (lines ++ [.finish])) := by
    unfold hash_dump
    rw [hlines, h.total]
    rfl
  have hall : pairs (.total (entriesFrom xs 0 hash_size).length :: (lines ++ [.finish]))
      = (entriesFrom xs 0 hash_size).map Entry.pair := by
    show pairs (lines ++ [.finish]) = _
    rw [pairs_append, hpairs]
    exact List.append_nil _
  refine ⟨_, hdump, ?_, ?_, ?_⟩
  · rw [hall]
    exact h.mem_pairs hpos hsize
  · rw [hall, List.map_map]
    exact h.keys_nodup
  · rw [hall, List.length_map]
    rfl

section Sample

def sampleKey : Str := [⟨65, by decide⟩]

def otherKey : Str := [⟨66, by decide⟩]

/-- A table with two buckets, the first one with two entries. -/
def threeEntries : Table where
  nodes p :=
    match p with
    | 0 => some ((Entry.new [] sampleKey).node (some 1))
    | 1 => some ((Entry.new otherKey []).node none)
    | 2 => some ((Entry.new sampleKey otherKey).node none)
    | _ => none
  buckets i := if i = 0 then some 0 else some 2
  bucket_sizes i := if i = 0 then 2 else 1

def threeChains (i : ℤ) : List (Ptr × Entry) :=
  if i = 0 then [(0, Entry.new [] sampleKey), (1, Entry.new otherKey [])] else [(2, Entry.new sampleKey otherKey)]

/-- What it holds. -/
def threePairs : Map :=
  lookup [Entry.new [] sampleKey, Entry.new otherKey [], Entry.new sampleKey otherKey]

theorem holds_threeEntries : Holds 2 threePairs threeEntries threeChains where
  chain i h₀ hi := by
    rcases (by omega : i = 0 ∨ i = 1) with rfl | rfl
    · exact ⟨rfl, rfl, rfl, trivial⟩
    · exact ⟨rfl, rfl, trivial⟩
  proper i h₀ hi := by
    rcases (by omega : i = 0 ∨ i = 1) with rfl | rfl <;> exact ⟨by decide, by decide +kernel, by decide⟩
  size i h₀ hi := by
    rcases (by omega : i = 0 ∨ i = 1) with rfl | rfl <;> rfl
  apart i j h₀ hi h₀' hj hne := by
    rcases (by omega : i = 0 ∧ j = 1 ∨ i = 1 ∧ j = 0) with ⟨rfl, rfl⟩ | ⟨rfl, rfl⟩ <;> decide
  distinct i h₀ hi := by
    rcases (by omega : i = 0 ∨ i = 1) with rfl | rfl <;> decide
  contents key := by
    by_cases hkey : key = [] ∨ key = otherKey ∨ key = sampleKey
    · rcases hkey with rfl | rfl | rfl <;> decide +kernel
    · have hchains (i : ℤ) : ∀ e ∈ entries (threeChains i), e.key = [] ∨ e.key = otherKey ∨ e.key = sampleKey := by
        unfold threeChains
        split <;> decide
      have hpairs : ∀ e ∈ [Entry.new [] sampleKey, Entry.new otherKey [], Entry.new sampleKey otherKey],
          e.key = [] ∨ e.key = otherKey ∨ e.key = sampleKey := by decide
      have hnone {es : List Entry} (hes : ∀ e ∈ es, e.key = [] ∨ e.key = otherKey ∨ e.key = sampleKey) :
          lookup es key = none := lookup_absent fun e he heq => hkey (heq ▸ hes e he)
      exact (hnone hpairs).trans (hnone (hchains _)).symm

/-- The dump of a table with two chains. -/
theorem hash_dump_exact_chains : ∃ lines, hash_dump (fun _ => 0) (fun _ => 0) 2 2 threeEntries = some lines ∧
    (∀ key value, (key, value) ∈ pairs lines ↔ threePairs key = some value) ∧
    ((pairs lines).map Prod.fst).Nodup ∧ lines.head? = some (.total 3) := by
  have hlength (i : ℤ) : (threeChains i).length ≤ 2 := by
    unfold threeChains
    split <;> decide
  obtain ⟨lines, hdump, hpairs, hnodup, hhead⟩ :=
    hash_dump_exact (fun _ => 0) (fun _ => 0) holds_threeEntries (by decide) (by decide) fun i _ _ => hlength i
  have hall : (hash_dump (fun _ => 0) (fun _ => 0) 2 2 threeEntries).map (fun ls => (pairs ls).length) = some 3 := by
    decide +kernel
  rw [hdump] at hall
  have hcount : (pairs lines).length = 3 := Option.some.inj hall
  rw [hcount] at hhead
  exact ⟨lines, hdump, hpairs, hnodup, hhead⟩

end Sample

end SystemProgramming.Hashtable
