import SystemProgramming.Hashtable.Owners

/-!
# Concurrent operations are atomic

The calls take effect in the order in which they give their locks back: one thread that makes them in
this order gets the same results and the same table (`Serialized`).  The serial calls meet an allocator
that fails where memory was refused in the concurrent run, so there has to be a free address for the
others: a table never has more than finitely many nodes (`Roomy`).

* `Atomic.of_reach`: every run has a serial counterpart.
* `hash_atomic`: the calls of any run are atomic, in the order of their unlocks.
-/

namespace SystemProgramming.Hashtable

open Function

/-! ### Room for one more node -/

/-- From some address on nothing is allocated. -/
def Roomy (T : Table) : Prop := ∃ bound, ∀ p, bound ≤ p → T.nodes p = none

variable {T T' : Table} {p : Ptr} {op : Op} {i : ℤ} {a : Option Ptr} {pc pc' : Pc} {A : Allocs}
  {fuel : ℕ}

theorem Roomy.init : Roomy Table.init := ⟨0, fun _ _ => rfl⟩

theorem Roomy.setNode (h : Roomy T) (p : Ptr) (n : Option Node) : Roomy (T.setNode p n) := by
  obtain ⟨bound, hbound⟩ := h
  refine ⟨max bound (p + 1), fun q hq => ?_⟩
  have hlt : p < q := (le_max_right _ _).trans hq
  exact (update_of_ne (Nat.ne_of_gt hlt) _ _).trans (hbound q ((le_max_left _ _).trans hq))

theorem Roomy.free (h : Roomy T) (g : Option Ptr) : Roomy (T.free g) := by
  cases g with
  | none => exact h
  | some p => exact h.setNode p none

theorem Roomy.next (h : Roomy T) (hnext : next op i a T pc = some (pc', T')) : Roomy T' := by
  cases pc with
  | head =>
    cases hnext
    exact h
  | visit prev cur => rwa [(next_visit_cases hnext).1]
  | malloc =>
    cases a with
    | none => cases hnext; exact h
    | some p => cases hnext; exact h.setNode p _
  | setKey p | setValue p | setKeySize p | setValueSize p | clearNext p | setNext p | storeValue p
  | storeSize p | free p =>
    obtain ⟨n, -, hnext⟩ := Option.bind_eq_some_iff.mp hnext
    cases hnext
    exact h.setNode p _
  | check p =>
    obtain ⟨n, -, hnext⟩ := Option.bind_eq_some_iff.mp hnext
    split at hnext <;> · cases hnext; exact h
  | link p | countUp | countDown =>
    cases hnext
    exact h
  | copy p => rwa [next_copy_same hnext]
  | dupValue p => cases a <;> · cases hnext; exact h
  | unlinkHead p =>
    obtain ⟨n, -, hnext⟩ := Option.bind_eq_some_iff.mp hnext
    cases hnext
    exact h
  | unlinkAfter q p =>
    obtain ⟨n, -, hnext⟩ := Option.bind_eq_some_iff.mp hnext
    obtain ⟨m, -, hnext⟩ := Option.bind_eq_some_iff.mp hnext
    cases hnext
    exact h.setNode q _
  | unlock r g => cases hnext

theorem Roomy.runBody (h : Roomy T) {r : Result} {g : Option Ptr}
    (hrun : runBody op i A fuel T pc = some (r, g, T')) : Roomy T' := by
  induction fuel generalizing T pc with
  | zero => cases hrun
  | succ fuel ih =>
    by_cases hpc : ∃ r g, pc = .unlock r g
    · obtain ⟨r, g, rfl⟩ := hpc
      cases hrun
      exact h
    · rw [runBody_succ hpc] at hrun
      obtain ⟨s, hs, hrest⟩ := Option.bind_eq_some_iff.mp hrun
      exact ih (h.next hs) hrest

theorem Roomy.call {ring : Rwlock.Ring} {S S' : Store} {r : Result} (h : Roomy S.table)
    (hcall : op.call ring fuel A S = some (r, S')) : Roomy S'.table := by
  rw [Op.call_eq] at hcall
  unfold lockedCall at hcall
  dsimp only at hcall
  split_ifs at hcall
  split at hcall
  · split at hcall
    · cases hcall
      exact h
    · obtain ⟨⟨r', g, T⟩, hrun, hrest⟩ := Option.bind_eq_some_iff.mp hcall
      obtain ⟨L, -, heq⟩ := Option.map_eq_some_iff.mp hrest
      cases heq
      exact (h.runBody hrun).free g
  · cases hcall

theorem Roomy.of_reach {ring : Rwlock.Ring} {hash_size : ℕ} {S : Store} {log : List Call}
    (h : Reach (callSys ring hash_size) log S) : Roomy S.table := by
  refine h.state_invariant (I := fun S => Roomy S.table) (fun S hS => ?_) fun S e S' hI hstep => ?_
  · obtain ⟨memory, lock_init, hinit⟩ := hS
    obtain ⟨rfl, -⟩ := hash_init_eq hinit
    exact Roomy.init
  · obtain ⟨fuel, hcall⟩ := hstep
    exact hI.call hcall

/-- With memory at a free address the operation has its effect, without it fails. -/
theorem single_effect (hp : T.nodes p = none) (ok : Bool) (es : List Entry) (op : Op) :
    op.effect ((Allocs.single p ok).ok T op) es = op.effect ok es := by
  cases op with
  | insert key value =>
    have hok : (Allocs.single p ok).ok T (.insert key value) = ok := by
      show ((if ok = true ∧ T.nodes p = none then some p else none).isSome && true && ok) = ok
      cases ok <;> simp [hp]
    rw [hok]
  | read key quick => rfl
  | update key value => rfl
  | delete key => rfl

/-! ### The serial execution -/

/-- A ring for a thread that is alone. -/
abbrev lone : Rwlock.Ring := Rwlock.Ring.plain 1 Nat.one_pos

/-- One thread has made the calls `ds` in this order, with these results, and its table has the
entries `es` in its buckets. -/
def Serialized (hash_size : ℕ) (ds : List Done) (es : ℤ → List Entry) : Prop :=
  ∃ log S ys, Reach (callSys lone hash_size) log S ∧
    log.map (fun e => (e.op, e.result)) = ds.map (fun d => (d.op, d.result)) ∧
    Rests lone hash_size (contents log) ys S ∧
    ∀ i : ℤ, 0 ≤ i → i < hash_size → entries (ys i) = es i

/-- One more call. -/
theorem Serialized.snoc {hash_size grant : ℕ} {ds : List Done} {es : ℤ → List Entry} {r : Result}
    {es' : List Entry} {ok : Bool} (h : Serialized hash_size ds es) (hpos : 1 ≤ hash_size)
    (hlt : hash_size < 2 ^ 31)
    (heffect : op.effect ok (es (hash op.key hash_size)) = (r, es')) :
    Serialized hash_size (ds ++ [⟨op, grant, r⟩]) (update es (hash op.key hash_size) es') := by
  obtain ⟨log, S, ys, hreach, hlog, hrests, hes⟩ := h
  obtain ⟨h₀, hi⟩ := hash_bounds op.key hpos (by omega)
  obtain ⟨bound, hbound⟩ := Roomy.of_reach hreach
  have hfree := hbound bound (le_refl bound)
  obtain ⟨fuel, S', zs, hcall, hserial, hrests', -⟩ := hrests.call hpos op (.single bound ok)
  rw [single_effect hfree, hes _ h₀ hi, heffect] at hserial
  obtain ⟨hr, hzs⟩ := Prod.mk.inj hserial
  have hfuel := hcall fuel (le_refl fuel)
  rw [← hr] at hfuel
  refine ⟨log ++ [⟨op, .single bound ok, r⟩], S', update ys (hash op.key hash_size) zs,
    hreach.step ⟨fuel, hfuel⟩, ?_, ?_, fun j hj₀ hj => ?_⟩
  · rw [List.map_append, List.map_append, hlog]
    rfl
  · rw [contents_snoc (e := ⟨op, .single bound ok, r⟩) hr]
    exact hrests'
  · by_cases hjb : j = hash op.key hash_size
    · rw [hjb, update_self, update_self, hzs]
    · rw [update_of_ne hjb, update_of_ne hjb]
      exact hes j hj₀ hj

/-! ### The concurrent run -/

variable {Θ : Type} [DecidableEq Θ] [Fintype Θ] {ring : Rwlock.Ring} {hash_size : ℕ} {W W' : World Θ}
  {tr : List (Event Θ)} {e : Event Θ}

/-- The state of a run, relative to the entries after the last unlock of each bucket. -/
structure Atomic (hash_size : ℕ) (tr : List (Event Θ)) (W : World Θ) : Prop where
  size_eq : W.hash_size = hash_size
  size_lt : hash_size < 2 ^ 31
  locked : Locked W
  ordered : Ordered hash_size (done tr) W
  serial : ∃ es xs own failed, Shape W es xs own failed ∧ Serialized hash_size (done tr) es

namespace Atomic

theorem init (hW : (tableSys ring hash_size Θ).init W) : Atomic hash_size [] W := by
  obtain ⟨hsize, hlt, hlocked, hordered⟩ := Ordered.of_reach (Reach.init hW)
  refine ⟨hsize, hlt, hlocked, hordered, fun _ => [], fun _ => [], fun _ => [], fun _ => false, ?_, ?_⟩
  · obtain ⟨memory, lock_init, S, hinit, rfl⟩ := hW
    obtain ⟨rfl, -⟩ := hash_init_eq hinit
    refine ⟨fun i => ⟨rfl, trivial⟩, fun i => List.nodup_nil, ⟨?_, ?_⟩, nofun, fun i _ => ⟨rfl, rfl⟩,
      fun _ _ => rfl, fun _ _ _ => rfl, nofun⟩
    · rintro (i | t) b _ p hp <;> cases hp
    · rintro (i | t) p hp <;> cases hp
  · obtain ⟨memory, lock_init, S, hinit, -⟩ := hW
    exact ⟨[], S, fun _ => [], Reach.init ⟨memory, lock_init, hinit⟩, rfl, Rests.init hinit,
      fun _ _ _ => rfl⟩

theorem of_step (hpos : 1 ≤ hash_size) (h : Atomic hash_size tr W) (hstep : Step ring W e W') :
    Atomic hash_size (tr ++ [e]) W' := by
  have hlocked := h.locked.of_step hstep
  refine ⟨hstep.size_eq.trans h.size_eq, h.size_lt, hlocked, h.ordered.of_step h.size_eq h.locked hstep,
    ?_⟩
  obtain ⟨es, xs, own, failed, hshape, hserial⟩ := h.serial
  rw [done_append]
  cases hstep with
  | call hplace _ =>
    obtain ⟨failed', hshape'⟩ := hshape.locked (hshape.outside _ hplace) (by simp [hplace]) hlocked
    exact ⟨es, xs, own, failed', hshape', by simpa [done] using hserial⟩
  | wake hplace _ =>
    obtain ⟨failed', hshape'⟩ := hshape.locked (hshape.waiting _ _ hplace) (by simp [hplace]) hlocked
    exact ⟨es, xs, own, failed', hshape', by simpa [done] using hserial⟩
  | body hplace hfresh hnext =>
    obtain ⟨xs', own', failed', hshape'⟩ := hshape.body h.locked hplace hfresh hnext
    exact ⟨es, xs', own', failed', hshape', by simpa [done] using hserial⟩
  | unlock hplace hlock =>
    rename_i t op grant r garbage code L
    have heffect := (hshape.inside t op grant _ hplace).stage.of_unlock.1
    have hbucket : W.bucket op = hash op.key hash_size := by rw [World.bucket, h.size_eq]
    refine ⟨_, xs, own, failed, hshape.unlock h.locked hplace, ?_⟩
    rw [hbucket] at heffect ⊢
    exact hserial.snoc hpos h.size_lt heffect
  | free hplace =>
    exact ⟨es, xs, _, failed, hshape.free hplace, by simpa [done] using hserial⟩

theorem of_reach (hpos : 1 ≤ hash_size) (h : Reach (tableSys ring hash_size Θ) tr W) :
    Atomic hash_size tr W :=
  h.invariant (I := fun tr W => Atomic hash_size tr W) (fun _ hW => init hW)
    fun _ _ _ _ hI hstep => hI.of_step hpos hstep

end Atomic

omit [DecidableEq Θ] [Fintype Θ] in
/-- When no body runs, the table holds the map that a table with the same entries holds. -/
theorem Shape.holds {es : ℤ → List Entry} {xs ys : ℤ → List (Ptr × Entry)} {own : Θ → List Ptr}
    {failed : Θ → Bool} {m : Map} (h : Shape W es xs own failed) (hidle : W.Idle)
    (hholds : Holds hash_size m T ys) (hpos : 1 ≤ hash_size) (hlt : hash_size < 2 ^ 31)
    (hes : ∀ i : ℤ, 0 ≤ i → i < hash_size → entries (ys i) = es i) :
    Holds hash_size m W.table xs ∧
      ∀ i : ℤ, 0 ≤ i → i < hash_size → entries (xs i) = entries (ys i) := by
  have hquiet : ∀ i, entries (xs i) = es i ∧ W.table.bucket_sizes i = (xs i).length := fun i =>
    h.quiet i fun t op g pc ht => absurd ht (hidle t op g pc)
  have hsame : ∀ i : ℤ, 0 ≤ i → i < hash_size → entries (xs i) = entries (ys i) :=
    fun i h₀ hi => (hquiet i).1.trans (hes i h₀ hi).symm
  refine ⟨⟨fun i _ _ => h.chain i, fun i h₀ hi => ?_, fun i _ _ => (hquiet i).2, ?_,
    fun i _ _ => h.distinct i, fun key => ?_⟩, hsame⟩
  · rw [hsame i h₀ hi]
    exact hholds.proper i h₀ hi
  · intro i j _ _ _ _ hij
    exact h.apart.disjoint (.bucket i) (.bucket j) fun heq => hij (by injection heq)
  · obtain ⟨h₀, hi⟩ := hash_bounds key hpos (by omega)
    rw [hsame _ h₀ hi]
    exact hholds.contents key

/-- The call returns -1 from its lock function. -/
def Event.refused (e : Event Θ) : Prop :=
  ∃ op code, code < 0 ∧ (e.deed = .call op (some code) ∨ e.deed = .wake op (some code))

/-- **Concurrent operations are atomic**, for any number of threads and every interleaving: one thread
that makes the calls that have given their lock back, in this order, gets the same results, and its
table is the same when no body runs; of two calls on one bucket that do not commute the one that was
granted its lock first comes first; no body gets stuck; and a call whose lock function returns -1 leaves
the table as it is. -/
theorem hash_atomic (hpos : 1 ≤ hash_size) (h : Reach (tableSys ring hash_size Θ) tr W) :
    (∃ log S, Reach (callSys lone hash_size) log S ∧
      log.map (fun e => (e.op, e.result)) = (done tr).map (fun d => (d.op, d.result)) ∧
      (W.Idle → ∃ xs ys, Holds hash_size (contents log) W.table xs ∧
        Holds hash_size (contents log) S.table ys ∧
        ∀ i : ℤ, 0 ≤ i → i < hash_size → entries (xs i) = entries (ys i))) ∧
    (done tr).Pairwise (fun x y => Conflict hash_size x.op y.op → x.grant < y.grant) ∧
    (∀ t op grant pc a, W.places t = .inside op grant pc → (∀ r garbage, pc ≠ .unlock r garbage) →
      (∀ p ∈ a, pc = .malloc → W.table.nodes p = none) →
      (next op (W.bucket op) a W.table pc).isSome) ∧
    ∀ e W', Step ring W e W' → e.refused → W'.table = W.table ∧ W'.places e.thread = .outside := by
  have hatomic := Atomic.of_reach hpos h
  obtain ⟨es, xs, own, failed, hshape, log, S, ys, hreach, hlog, hrests, hes⟩ := hatomic.serial
  refine ⟨⟨log, S, hreach, hlog, fun hidle => ?_⟩, hatomic.ordered.sorted, ?_, ?_⟩
  · obtain ⟨hholds, hsame⟩ := hshape.holds hidle hrests.holds hpos hatomic.size_lt hes
    exact ⟨xs, ys, hholds, hrests.holds, hsame⟩
  · intro t op grant pc a hplace hpc hfresh
    obtain ⟨pc', T', xs', own', hnext, -⟩ := (hshape.inside t op grant pc hplace).step hpc hfresh
    rw [hnext]
    rfl
  · rintro e W' hstep ⟨op, code, hcode, hdeed⟩
    cases hstep with
    | call _ _ | wake _ _ =>
      rcases hdeed with hdeed | hdeed <;> cases hdeed
      rw [World.locked, if_pos hcode]
      exact ⟨rfl, update_self _ _ _⟩
    | body _ _ _ | unlock _ _ | free _ => rcases hdeed with hdeed | hdeed <;> cases hdeed

/-- A thread reads a key while another one is inserting it: it waits for its lock, and then finds the value, as in a
run of one thread that makes the two calls in this order. -/
theorem hash_atomic_read : ∃ (W : World (Fin 2)) (log : List Call) (S : Store) (xs ys : ℤ → List (Ptr × Entry)),
    Reach (callSys lone 1) log S ∧
    log.map (fun e => (e.op, e.result)) = [(.insert [] [⟨65, by decide⟩], ⟨1, none⟩),
      (.read [] false, ⟨1, some [65, 0]⟩)] ∧
    Holds 1 (contents log) W.table xs ∧ Holds 1 (contents log) S.table ys ∧ entries (xs 0) = entries (ys 0) := by
  have hplayed : (sampleStart.play lone [] (sampleSteps [⟨65, by decide⟩] (.read [] false) 5)).map
      (fun q => (q.2.places 0, q.2.places 1, (done q.1).map fun d => (d.op, d.result)))
      = some (.outside, .outside,
        [(.insert [] [⟨65, by decide⟩], ⟨1, none⟩), (.read [] false, ⟨1, some [65, 0]⟩)]) := by
    decide +kernel
  obtain ⟨⟨tr, W⟩, hplay, heq⟩ := Option.map_eq_some_iff.mp hplayed
  simp only [Prod.mk.injEq] at heq
  obtain ⟨hfirst, hsecond, hdone⟩ := heq
  have hidle : W.Idle := by
    intro t op grant pc ht
    match t with
    | 0 => cases hfirst.symm.trans ht
    | 1 => cases hsecond.symm.trans ht
  obtain ⟨⟨log, S, hreach, hlog, hsame⟩, -⟩ :=
    hash_atomic (le_refl 1) (reach_of_play (reach_sampleStart lone) hplay)
  obtain ⟨xs, ys, hxs, hys, hentries⟩ := hsame hidle
  exact ⟨W, log, S, xs, ys, hreach, hlog.trans hdone, hxs, hys, hentries 0 (by decide) (by decide)⟩

end SystemProgramming.Hashtable
