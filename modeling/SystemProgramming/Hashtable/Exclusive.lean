import SystemProgramming.Hashtable.Threads

/-!
# Bodies and their locks

A thread holds the lock of its bucket exactly while it is in its body (`Locked`), so a writer is alone
on its bucket.  From that the order of grants: of two calls on one bucket that do not commute, the one
that was granted its lock first is the first to give it back (`Ordered`).

* `Locked.of_reach`: in every state the locks are held by the threads that are in their bodies.
* `exclusive`: a writer is alone on its bucket.
* `Ordered.of_reach`: calls that conflict give their locks back in the order of their grants.
-/

namespace SystemProgramming.Hashtable

open Function

/-- The read locks of the bucket `i` that a thread holds. -/
def Place.reads (hash_size : ℕ) (i : ℤ) : Place → ℕ
  | .inside op _ _ => if hash op.key hash_size = i then op.lockCall.reads else 0
  | _ => 0

/-- The write locks of the bucket `i` that a thread holds. -/
def Place.writes (hash_size : ℕ) (i : ℤ) : Place → ℕ
  | .inside op _ _ => if hash op.key hash_size = i then op.lockCall.writes else 0
  | _ => 0

theorem inside_reads {hash_size g : ℕ} {i : ℤ} {op : Op} {pc : Pc} (h : hash op.key hash_size = i) :
    (Place.inside op g pc).reads hash_size i = op.lockCall.reads := if_pos h

theorem inside_writes {hash_size g : ℕ} {i : ℤ} {op : Op} {pc : Pc} (h : hash op.key hash_size = i) :
    (Place.inside op g pc).writes hash_size i = op.lockCall.writes := if_pos h

theorem lockCall_reads (op : Op) : op.lockCall.reads = if op.writes = true then 0 else 1 := by
  cases op with
  | read key quick => cases quick <;> rfl
  | _ => rfl

theorem lockCall_writes (op : Op) : op.lockCall.writes = if op.writes = true then 1 else 0 := by
  cases op with
  | read key quick => cases quick <;> rfl
  | _ => rfl

variable {Θ : Type} [DecidableEq Θ] [Fintype Θ] {ring : Rwlock.Ring} {hash_size : ℕ} {W W' : World Θ}
  {t u : Θ} {op op' : Op} {e : Event Θ} {tr : List (Event Θ)}

/-- The locks cover what is out, and what is out is what the bodies need. -/
structure Locked (W : World Θ) : Prop where
  covered : ∀ i, Rwlock.Covered (W.locks i)
  reads : ∀ i t, ((W.locks i).threads t).reads = (W.places t).reads W.hash_size i
  writes : ∀ i t, ((W.locks i).threads t).writes = (W.places t).writes W.hash_size i

namespace Locked

/-- A step of the lock of the bucket `b` moves the thread `t` to a place that agrees with it. -/
theorem lockStep {b : ℤ} {a : Rwlock.Action} {r : Option ℤ} {L : Rwlock.State Θ} {place : Place}
    {grants : ℕ} (h : Locked W) (hlock : Rwlock.Step ring (W.locks b) ⟨t, a, r⟩ L)
    (hcorrect : Rwlock.Correct (W.locks b) ⟨t, a, r⟩ L)
    (hreads : (L.threads t).reads = place.reads W.hash_size b)
    (hwrites : (L.threads t).writes = place.writes W.hash_size b)
    (hother : ∀ i, i ≠ b → place.reads W.hash_size i = (W.places t).reads W.hash_size i ∧
      place.writes W.hash_size i = (W.places t).writes W.hash_size i) :
    Locked { W with locks := update W.locks b L, places := update W.places t place
                    grants := grants } := by
  refine ⟨fun i => ?_, fun i u => ?_, fun i u => ?_⟩
  · show Rwlock.Covered (update W.locks b L i)
    by_cases hi : i = b
    · subst hi
      rw [update_self]
      exact (h.covered i).step hlock hcorrect
    · rw [update_of_ne hi]
      exact h.covered i
  · show ((update W.locks b L i).threads u).reads = (update W.places t place u).reads W.hash_size i
    by_cases hi : i = b
    · subst hi
      rw [update_self]
      by_cases hu : u = t
      · subst hu
        rw [update_self]
        exact hreads
      · rw [update_of_ne hu, (hlock.others hu).1]
        exact h.reads i u
    · rw [update_of_ne hi]
      by_cases hu : u = t
      · subst hu
        rw [update_self, (hother i hi).1]
        exact h.reads i u
      · rw [update_of_ne hu]
        exact h.reads i u
  · show ((update W.locks b L i).threads u).writes = (update W.places t place u).writes W.hash_size i
    by_cases hi : i = b
    · subst hi
      rw [update_self]
      by_cases hu : u = t
      · subst hu
        rw [update_self]
        exact hwrites
      · rw [update_of_ne hu, (hlock.others hu).2]
        exact h.writes i u
    · rw [update_of_ne hi]
      by_cases hu : u = t
      · subst hu
        rw [update_self, (hother i hi).2]
        exact h.writes i u
      · rw [update_of_ne hu]
        exact h.writes i u

/-- A thread that holds nothing runs a section of a lock function. -/
theorem locked {a : Rwlock.Action} {r : Option ℤ} {L : Rwlock.State Θ} (h : Locked W)
    (hidle : ∀ i, (W.places t).reads W.hash_size i = 0 ∧ (W.places t).writes W.hash_size i = 0)
    (ha : a = .call op.lockCall ∨ a = .wake op.lockCall)
    (hlock : Rwlock.Step ring (W.locks (W.bucket op)) ⟨t, a, r⟩ L) : Locked (W.locked t op L r) := by
  have hcorrect : Rwlock.Correct (W.locks (W.bucket op)) ⟨t, a, r⟩ L := by
    rcases ha with rfl | rfl <;> exact trivial
  have hr := h.reads (W.bucket op) t
  have hw := h.writes (W.bucket op) t
  rw [(hidle _).1] at hr
  rw [(hidle _).2] at hw
  rcases hlock.outcome ha with ⟨rfl, hreads, hwrites⟩ | ⟨hresult, hreads, hwrites⟩
  · rw [hr, Nat.zero_add] at hreads
    rw [hw, Nat.zero_add] at hwrites
    refine h.lockStep hlock hcorrect ?_ ?_ fun i hi => ?_
    · exact hreads.trans (if_pos rfl).symm
    · exact hwrites.trans (if_pos rfl).symm
    · rw [(hidle i).1, (hidle i).2]
      exact ⟨if_neg (Ne.symm hi), if_neg (Ne.symm hi)⟩
  · have hnone : ∀ place : Place, (∀ i, place.reads W.hash_size i = 0 ∧
        place.writes W.hash_size i = 0) → Locked { W with locks := update W.locks (W.bucket op) L
                                                          places := update W.places t place } := by
      intro place hplace
      refine h.lockStep hlock hcorrect ?_ ?_ fun i _ => ?_
      · rw [hreads, hr, (hplace _).1]
      · rw [hwrites, hw, (hplace _).2]
      · rw [(hidle i).1, (hidle i).2]
        exact hplace i
    rcases hresult with rfl | rfl
    · exact hnone (.waiting op) fun _ => ⟨rfl, rfl⟩
    · exact hnone .outside fun _ => ⟨rfl, rfl⟩

/-- A thread moves to a place where it holds the same. -/
theorem move {T : Table} {place : Place} (h : Locked W)
    (hsame : ∀ i, place.reads W.hash_size i = (W.places t).reads W.hash_size i ∧
      place.writes W.hash_size i = (W.places t).writes W.hash_size i) :
    Locked { W with table := T, places := update W.places t place } := by
  refine ⟨h.covered, fun i u => (h.reads i u).trans ?_, fun i u => (h.writes i u).trans ?_⟩
  · show _ = (update W.places t place u).reads W.hash_size i
    by_cases hu : u = t
    · subst hu
      rw [update_self, (hsame i).1]
    · rw [update_of_ne hu]
  · show _ = (update W.places t place u).writes W.hash_size i
    by_cases hu : u = t
    · subst hu
      rw [update_self, (hsame i).2]
    · rw [update_of_ne hu]

theorem of_step (h : Locked W) (hstep : Step ring W e W') : Locked W' := by
  cases hstep with
  | call hplace hlock =>
    exact h.locked (fun i => by rw [hplace]; exact ⟨rfl, rfl⟩) (Or.inl rfl) hlock
  | wake hplace hlock =>
    exact h.locked (fun i => by rw [hplace]; exact ⟨rfl, rfl⟩) (Or.inr rfl) hlock
  | body hplace hfresh hnext => exact h.move fun i => by rw [hplace]; exact ⟨rfl, rfl⟩
  | unlock hplace hlock =>
    rename_i t op grant r garbage code L
    have hr := h.reads (W.bucket op) t
    have hw := h.writes (W.bucket op) t
    have hb : hash op.key W.hash_size = W.bucket op := rfl
    rw [hplace, inside_reads hb] at hr
    rw [hplace, inside_writes hb] at hw
    have hcorrect : Rwlock.Correct (W.locks (W.bucket op)) ⟨t, op.lockCall.release, code⟩ L := by
      cases hc : op.lockCall with
      | quick | read =>
        show 0 < ((W.locks (W.bucket op)).threads t).reads
        rw [hr, hc]
        exact Nat.one_pos
      | write =>
        show 0 < ((W.locks (W.bucket op)).threads t).writes
        rw [hw, hc]
        exact Nat.one_pos
    have hnone : ∀ i, (Place.afterUnlock garbage).reads W.hash_size i = 0 ∧
        (Place.afterUnlock garbage).writes W.hash_size i = 0 := by
      intro i
      cases garbage <;> exact ⟨rfl, rfl⟩
    obtain ⟨hreads, hwrites⟩ := hlock.released
    refine h.lockStep hlock hcorrect ?_ ?_ fun i hi => ?_
    · rw [hreads, hr, (hnone _).1, Nat.sub_self]
    · rw [hwrites, hw, (hnone _).2, Nat.sub_self]
    · rw [(hnone i).1, (hnone i).2, hplace]
      exact ⟨(if_neg (Ne.symm hi)).symm, (if_neg (Ne.symm hi)).symm⟩
  | free hplace => exact h.move fun i => by rw [hplace]; exact ⟨rfl, rfl⟩

theorem of_reach (h : Reach (tableSys ring hash_size Θ) tr W) : Locked W := by
  refine h.state_invariant (fun W hW => ?_) fun W e W' hI hstep => hI.of_step hstep
  obtain ⟨memory, lock_init, S, -, rfl⟩ := hW
  refine ⟨fun i => ?_, fun i t => rfl, fun i t => rfl⟩
  exact Rwlock.Covered.of_reach (Reach.init (S := Rwlock.correctSys ring Θ) rfl)

/-- **A writer is alone on its bucket.** -/
theorem exclusive {g g' : ℕ} {pc pc' : Pc} (h : Locked W) (ht : W.places t = .inside op g pc)
    (hu : W.places u = .inside op' g' pc') (hne : u ≠ t) (hsame : W.bucket op' = W.bucket op) :
    op.writes = false := by
  by_contra hwrites
  rw [Bool.not_eq_false] at hwrites
  have hw : ((W.locks (W.bucket op)).threads t).writes = 1 := by
    have hb : hash op.key W.hash_size = W.bucket op := rfl
    rw [h.writes, ht, inside_writes hb, lockCall_writes, if_pos hwrites]
  have hpos : 0 < ((W.locks (W.bucket op)).threads t).writes := by omega
  have hreader := (h.covered (W.bucket op)).no_reader hpos u
  have hwriter := (h.covered (W.bucket op)).alone hpos hne
  rw [h.reads, hu, inside_reads hsame, lockCall_reads] at hreader
  rw [h.writes, hu, inside_writes hsame, lockCall_writes] at hwriter
  split_ifs at hreader hwriter

end Locked

/-! ### The order of grants -/

/-- Of two conflicting calls the first to give its lock back was granted it first; so it is for a call
that has given it back and one that has not. -/
structure Ordered (hash_size : ℕ) (ds : List Done) (W : World Θ) : Prop where
  sorted : ds.Pairwise fun x y => Conflict hash_size x.op y.op → x.grant < y.grant
  past : ∀ x ∈ ds, x.grant < W.grants
  running : ∀ t op g pc, W.places t = .inside op g pc → g < W.grants ∧
    ∀ x ∈ ds, Conflict hash_size x.op op → x.grant < g

omit [DecidableEq Θ] [Fintype Θ] in
theorem done_append (tr : List (Event Θ)) (e : Event Θ) : done (tr ++ [e]) = done tr ++ done [e] :=
  List.filterMap_append

namespace Ordered

omit [Fintype Θ] in
/-- A thread moves to a place outside every body. -/
theorem leave {ds : List Done} (h : Ordered hash_size ds W) (place : Place)
    (hplace : ∀ op g pc, place ≠ .inside op g pc) (hplaces : W'.places = update W.places t place)
    (hgrants : W'.grants = W.grants) : Ordered hash_size ds W' := by
  refine ⟨h.sorted, fun x hx => hgrants ▸ h.past x hx, fun u op g pc hu => ?_⟩
  rw [hplaces] at hu
  rw [hgrants]
  rcases update_cases hu with ⟨-, hq⟩ | ⟨-, hu⟩
  · exact absurd hq (hplace op g pc)
  · exact h.running u op g pc hu

omit [Fintype Θ] in
theorem locked {ds : List Done} {r : Option ℤ} {L : Rwlock.State Θ} (h : Ordered hash_size ds W) :
    Ordered hash_size ds (W.locked t op L r) := by
  cases r with
  | none => exact h.leave (.waiting op) nofun rfl rfl
  | some code =>
    by_cases hcode : code < 0
    · rw [World.locked, if_pos hcode]
      exact h.leave .outside nofun rfl rfl
    · rw [World.locked, if_neg hcode]
      have hlt : ∀ {n : ℕ}, n < W.grants → n < W.grants + 1 := fun h => by omega
      refine ⟨h.sorted, fun x hx => hlt (h.past x hx), fun u op' g pc hu => ?_⟩
      rcases update_cases hu with ⟨-, hq⟩ | ⟨-, hu⟩
      · cases hq
        exact ⟨Nat.lt_succ_self _, fun x hx _ => h.past x hx⟩
      · obtain ⟨hg, hds⟩ := h.running u op' g pc hu
        exact ⟨hlt hg, hds⟩

theorem of_step (h : Ordered hash_size (done tr) W) (hsize : W.hash_size = hash_size)
    (hlocked : Locked W) (hstep : Step ring W e W') :
    Ordered hash_size (done (tr ++ [e])) W' := by
  rw [done_append]
  cases hstep with
  | call hplace hlock =>
    rw [show done [_] = [] from rfl, List.append_nil]
    exact h.locked
  | wake hplace hlock =>
    rw [show done [_] = [] from rfl, List.append_nil]
    exact h.locked
  | body hplace hfresh hnext =>
    rename_i t op grant pc pc' a T
    rw [show done [_] = [] from rfl, List.append_nil]
    refine ⟨h.sorted, h.past, fun u op' g pc hu => ?_⟩
    rcases update_cases hu with ⟨rfl, hq⟩ | ⟨-, hu⟩
    · cases hq
      exact h.running u _ _ _ hplace
    · exact h.running u op' g pc hu
  | unlock hplace hlock =>
    rename_i t op grant r garbage code L
    rw [show done [_] = [⟨op, grant, r⟩] from rfl]
    obtain ⟨hgrant, hbefore⟩ := h.running t op grant _ hplace
    refine ⟨?_, ?_, fun u op' g pc hu => ?_⟩
    · rw [List.pairwise_append]
      refine ⟨h.sorted, List.pairwise_singleton _ _, fun x hx y hy hconf => ?_⟩
      rw [List.mem_singleton.mp hy] at hconf ⊢
      exact hbefore x hx hconf
    · intro x hx
      cases List.mem_append.mp hx with
      | inl hx => exact h.past x hx
      | inr hx => rw [List.mem_singleton.mp hx]; exact hgrant
    · rcases update_cases hu with ⟨-, hq⟩ | ⟨hut, hu⟩
      · cases garbage <;> cases hq
      · obtain ⟨hg, hds⟩ := h.running u op' g pc hu
        refine ⟨hg, fun x hx hconf => ?_⟩
        cases List.mem_append.mp hx with
        | inl hx => exact hds x hx hconf
        | inr hx =>
          -- the two bodies would be on one bucket together
          rw [List.mem_singleton.mp hx] at hconf
          obtain ⟨hbucket, hwrites⟩ := hconf
          have hb : W.bucket op = W.bucket op' := by rw [World.bucket, World.bucket, hsize, hbucket]
          have h₁ := hlocked.exclusive hplace hu hut hb.symm
          have h₂ := hlocked.exclusive hu hplace (Ne.symm hut) hb
          rw [h₁, h₂] at hwrites
          rcases hwrites with hwrites | hwrites <;> cases hwrites
  | free hplace =>
    rw [show done [_] = [] from rfl, List.append_nil]
    exact h.leave .outside nofun rfl rfl

end Ordered

omit [Fintype Θ] in
theorem Step.size_eq (h : Step ring W e W') : W'.hash_size = W.hash_size := by
  have hlocked : ∀ (t : Θ) op L r, (W.locked t op L r).hash_size = W.hash_size := by
    intro t op L r
    cases r with
    | none => rfl
    | some code =>
      show (if code < 0 then _ else _ : World Θ).hash_size = _
      split <;> rfl
  cases h with
  | call _ _ => exact hlocked _ _ _ _
  | wake _ _ => exact hlocked _ _ _ _
  | body _ _ _ => rfl
  | unlock _ _ => rfl
  | free _ => rfl

/-- In every run the sizes fit, the locks are held by the bodies, and conflicting calls are ordered. -/
theorem Ordered.of_reach (h : Reach (tableSys ring hash_size Θ) tr W) :
    W.hash_size = hash_size ∧ hash_size < 2 ^ 31 ∧ Locked W ∧ Ordered hash_size (done tr) W := by
  refine h.invariant (I := fun tr W => W.hash_size = hash_size ∧ hash_size < 2 ^ 31 ∧ Locked W ∧
    Ordered hash_size (done tr) W) (fun W hW => ?_) fun tr W e W' hI hstep => ?_
  · have hlocked := Locked.of_reach (Reach.init (S := tableSys ring hash_size Θ) hW)
    obtain ⟨memory, lock_init, S, hinit, rfl⟩ := hW
    obtain ⟨rfl, hlt⟩ := hash_init_eq hinit
    exact ⟨rfl, hlt, hlocked, List.Pairwise.nil, nofun, nofun⟩
  · obtain ⟨hsize, hlt, hlocked, hordered⟩ := hI
    exact ⟨hstep.size_eq.trans hsize, hlt, hlocked.of_step hstep,
      hordered.of_step hsize hlocked hstep⟩

end SystemProgramming.Hashtable
