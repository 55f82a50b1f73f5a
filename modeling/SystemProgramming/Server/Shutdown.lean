import SystemProgramming.Server.Interleaved
import Mathlib.Algebra.BigOperators.Intervals
import Mathlib.Algebra.Order.BigOperators.Group.Finset

/-!
# After SIGINT

Once `g_shutdown` is set, a worker finishes the call that it has decided on and no other: every test
that would lead to a new `accept`, `recv` or `skvs_serve` comes out the other way.  What is left to do
is then bounded, by a number that every step uses up.

* `work_after_sigint`: one more `accept`, `recv` or `skvs_serve` for each worker at most.
* `steps_after_sigint`: a bound on the steps of the whole process.
* `shutdown_completes`: where the process comes to rest, `main` has returned, or it sleeps in `pause`,
  or it joins a worker that waits for its client or for the store.
-/

namespace SystemProgramming.Server

open Exec Function

variable {cfg : Config} {num_threads : ℕ} {g : Bool} {W W' : World} {e : Event} {p q : Place}
  {d : Deed} {pc pc' : ClientPc} {c c' : Conn} {tr tr₁ tr₂ : List Event} {answer : Served} {B : ℕ}

/-! ### What a worker is about to do -/

/-- The calls that bring new work: `accept` or `recv` returns, or `skvs_serve` is called. -/
def Deed.isWork : Deed → Bool
  | .accept _ => true
  | .refuse _ => true
  | .recv _ => true
  | .serve => true
  | _ => false

/-- The worker has decided on such a call. -/
def Place.due : Place → Bool
  | .accepting => true
  | .client _ .recv _ => true
  | .client _ .serve _ => true
  | _ => false

/-- What is known of the client that a worker serves. -/
def Place.Inv (cfg : Config) (g : Bool) (p : Place) : Prop :=
  ∀ clientfd pc c, p = .client clientfd pc c → ClientInv cfg g pc c

/-- A step of the per-client loop leads where `Goes` says. -/
theorem goes_of_next (hinv : ClientInv cfg g pc c) (hpc : pc ≠ .close)
    (h : clientNext cfg answer pc { c with g_shutdown := g } = .ok pc' c') :
    Goes answer { c with g_shutdown := g } c' pc pc' := by
  have hwp := wp_clientNext answer hpc hinv.refresh
  rw [wp_iff_of_ok h] at hwp
  exact hwp.1

/-- After SIGINT nothing new becomes due, and only what was due is done. -/
theorem due_step (hinv : p.Inv cfg true) (h : WorkerStep cfg true p d q) :
    q.due = false ∧ (d.isWork = true → p.due = true) := by
  cases h with
  | enter hrun => cases hrun
  | leave _ => exact ⟨rfl, fun hd => by cases hd⟩
  | accept _ _ _ _ _ => exact ⟨rfl, fun _ => rfl⟩
  | refuse _ => exact ⟨rfl, fun _ => rfl⟩
  | retry hrun => cases hrun
  | stop _ => exact ⟨rfl, fun hd => by cases hd⟩
  | client answer hpc hnext =>
    rename_i clientfd pc pc' c c'
    have hgoes := goes_of_next (hinv clientfd pc c rfl) hpc hnext
    constructor
    · cases hgoes with
      | receive hrec => exact absurd hrec.2.1 Bool.noConfusion
      | pass hrun => cases hrun
      | _ => rfl
    · intro hd
      cases pc with
      | recv => rfl
      | serve => rfl
      | close => exact absurd rfl hpc
      | _ => cases hd
  | close => exact ⟨rfl, fun hd => by cases hd⟩

/-! ### The signal -/

/-- `g_shutdown` is never reset. -/
theorem shutdown_stays (hg : W.g_shutdown = true) (hs : Step cfg num_threads W e W') :
    W'.g_shutdown = true := by
  cases hs with
  | sigint _ _ =>
    unfold World.interrupt
    split
    · exact hg
    · rfl
  | setup fd hmain hfree =>
    rw [World.setUp_g_shutdown]
    exact hg
  | _ => exact hg

/-- What holds in every state of a run after SIGINT. -/
structure Stopping (cfg : Config) (num_threads : ℕ) (W : World) : Prop where
  shutdown : W.g_shutdown = true
  clients : W.Clients cfg
  inStep : InStep num_threads W
  owned : W.Owned

theorem Stopping.step (h : Stopping cfg num_threads W) (hs : Step cfg num_threads W e W') :
    Stopping cfg num_threads W' where
  shutdown := shutdown_stays h.shutdown hs
  clients := clients_step h.clients hs
  inStep := h.inStep.step (fun i fd hfd => (h.owned.owned_iff fd).mpr ⟨i, hfd⟩) hs
  owned := owned_step h.owned h.inStep hs

/-- A run after SIGINT: the process is gone, or it is stopping. -/
theorem stopping_of_reach {P : World → Event → World → Prop} {handler : Option ℕ}
    (h : Reach ((serverSys cfg num_threads).restrict P) (tr₁ ++ .sigint handler :: tr₂) W) :
    tr₂ = [] ∨ ∃ W₁, Stopping cfg num_threads W₁ ∧
      Reach ((serverSys cfg num_threads).restrict P) (tr₁ ++ [.sigint handler]) W₁ ∧
      Reach (((serverSys cfg num_threads).restrict P).startAt W₁) tr₂ W := by
  obtain ⟨W₀, W₁, h₀, hs, htail⟩ := h.split_cons
  have h₁ := h₀.step hs
  obtain ⟨⟨-, hs⟩, -⟩ := hs
  cases hs with
  | sigint _ hhandler =>
    by_cases hmain : W₀.main = .setup .signal
    · left
      have hexited : (W₀.interrupt handler).exited = true := by
        unfold World.interrupt
        rw [if_pos hmain]
      refine (htail.stays fun e W' hs' => ?_).1
      obtain ⟨⟨⟨hexited', -⟩, -⟩, -⟩ := hs'
      rw [hexited] at hexited'
      cases hexited'
    · right
      have hg : (W₀.interrupt handler).g_shutdown = true := by
        unfold World.interrupt
        rw [if_neg hmain]
      obtain ⟨hin, howned⟩ := inStep_owned h₁.unrestrict
      exact ⟨_, ⟨hg, clients_of_reach h₁.unrestrict, hin, howned⟩, h₁, htail⟩

/-- The worker `i` does some new work. -/
def workOf (i : ℕ) : Event → Bool
  | .worker j d => j = i && d.isWork
  | _ => false

/-- **After SIGINT a worker does no more than it has decided on**: it returns from one `accept` or
`recv`, or makes one call of `skvs_serve`, and none of these after it. -/
theorem work_after_sigint {handler : Option ℕ}
    (h : Reach (serverSys cfg num_threads) (tr₁ ++ .sigint handler :: tr₂) W) (i : ℕ) :
    tr₂.countP (workOf i) ≤ 1 := by
  have hall := h.restrict (P := fun _ _ _ => True) fun _ _ _ _ => trivial
  obtain rfl | ⟨W₁, hstop, -, htail⟩ := stopping_of_reach hall
  · exact Nat.zero_le 1
  · have hbudget := htail.budget (p := workOf i) (fun W => if (W.workers i).due = true then 1 else 0)
      hstop (fun W e W' hW hs => hW.step hs.1.2) ?_
    · have hle : (if (W₁.workers i).due = true then 1 else 0) ≤ 1 := by
        split
        · exact Nat.le_refl 1
        · exact Nat.zero_le 1
      have := hbudget.2
      omega
    · rintro W e W' hW ⟨⟨-, hs⟩, -⟩
      cases hs with
      | worker j hstep hallowed =>
        rename_i d p
        by_cases hij : j = i
        · subst hij
          rw [hW.shutdown] at hstep
          obtain ⟨hq, hd⟩ := due_step (fun fd pc c hi => hW.shutdown ▸ hW.clients j fd pc c hi) hstep
          show (if workOf j (.worker j d) = true then 1 else 0)
            + (if (update W.workers j p j).due = true then 1 else 0) ≤ _
          rw [update_self, hq]
          cases hwork : d.isWork with
          | true => simp [workOf, hwork, hd hwork]
          | false => simp [workOf, hwork]
        · show (if workOf i (.worker j d) = true then 1 else 0)
            + (if (update W.workers j p i).due = true then 1 else 0) ≤ _
          rw [update_of_ne (Ne.symm hij)]
          simp [workOf, hij]
      | create j hmain hi =>
        show 0 + (if (update W.workers j .loop i).due = true then 1 else 0) ≤ _
        by_cases hij : i = j
        · rw [hij, update_self]
          exact Nat.zero_le _
        · rw [update_of_ne hij, Nat.zero_add]
      | sigint _ _ =>
        rw [World.interrupt_workers]
        exact Nat.le_of_eq (Nat.zero_add _)
      | setup fd hmain hfree =>
        rw [World.setUp_workers]
        exact Nat.le_of_eq (Nat.zero_add _)
      | _ => exact Nat.le_of_eq (Nat.zero_add _)

/-- The theorem for the run of one worker: it returns from one `recv`. -/
theorem work_after_sigint_sample : ∃ W, Reach (serverSys echoConfig 1)
    (sampleWork ++ .sigint none :: sampleShutdown) W ∧ sampleShutdown.countP (workOf 0) ≤ 1 := by
  obtain ⟨W, h, -⟩ := exists_sample
  exact ⟨W, h, work_after_sigint h 0⟩

/-! ### How much is left to do -/

/-- The steps left to a worker in its per-client loop, once `g_shutdown` is set: a call of `send` takes
at least one byte of a response of at most `B`. -/
def ClientPc.left (B : ℕ) (response_len : ℤ) : ClientPc → ℕ
  | .close => 2
  | .head => 3
  | .received => 3
  | .receiving => 4
  | .recvFailed _ => 4
  | .recv => 5
  | .consume => 4
  | .sendFailed _ _ => 5
  | .send sent => 6 + 2 * (response_len - sent).toNat
  | .sendTest sent => 7 + 2 * (response_len - sent).toNat
  | .serving => 8 + 2 * B
  | .serve => 9 + 2 * B

def Place.left (B : ℕ) : Place → ℕ
  | .absent => 0
  | .loop => 1
  | .accepting => 4
  | .refused _ => 1
  | .client _ pc c => pc.left B c.response_len
  | .returned => 0

def Setup.left : Setup → ℕ
  | signal => 7
  | skvs_init => 6
  | socket => 5
  | inet_pton => 4
  | setsockopt => 3
  | bind => 2
  | listen => 1

/-- The steps left to `main`, a worker that it creates being counted twice: its creation and its
return. -/
def MainPc.left (num_threads : ℕ) : MainPc → ℕ
  | .setup call => 3 * num_threads + 6 + call.left
  | .create i => 2 * (num_threads - i) + num_threads + 6
  | .pause => num_threads + 6
  | .asleep => num_threads + 5
  | .waitTest => num_threads + 5
  | .shutdown => num_threads + 4
  | .close => num_threads + 3
  | .join j => num_threads - j + 2
  | .skvs_destroy => 1
  | .returned => 0

/-- The steps left to the process. -/
def World.left (B num_threads : ℕ) (W : World) : ℕ :=
  (if W.exited = true then 0 else W.main.left num_threads)
    + ∑ i ∈ Finset.range num_threads, (W.workers i).left B

/-- Where a worker is in its response. -/
def ClientPc.Sends (B : ℕ) (response_len : ℤ) : ClientPc → Prop
  | .sendTest sent => 0 ≤ sent ∧ response_len ≤ B
  | .send sent => 0 ≤ sent ∧ sent < response_len ∧ response_len ≤ B
  | .sendFailed sent _ => 0 ≤ sent ∧ response_len ≤ B
  | _ => True

def World.Sends (B : ℕ) (W : World) : Prop :=
  ∀ i clientfd pc c, W.workers i = .client clientfd pc c → pc.Sends B c.response_len

theorem ClientPc.left_le (h : pc.Sends B c.response_len) : pc.left B c.response_len ≤ 9 + 2 * B := by
  cases pc with
  | sendTest sent =>
    obtain ⟨h₁, h₂⟩ := h
    show 7 + 2 * (c.response_len - sent).toNat ≤ _
    omega
  | send sent =>
    obtain ⟨h₁, -, h₂⟩ := h
    show 6 + 2 * (c.response_len - sent).toNat ≤ _
    omega
  | _ =>
    simp only [ClientPc.left]
    omega

/-- The response is not overrun. -/
theorem Goes.sends (h : Goes answer c c' pc pc')
    (hB : pc = .serving → answer.response_len ≤ B) (hs : pc.Sends B c.response_len) :
    pc'.Sends B c'.response_len := by
  cases h with
  | answered hlen => exact ⟨Int.le_refl 0, hlen ▸ hB rfl⟩
  | send hlen hlt => exact ⟨hs.1, hlen ▸ hlt, hlen ▸ hs.2⟩
  | took n hlen hn =>
    obtain ⟨h₁, h₂, h₃⟩ := hs
    exact ⟨by omega, hlen ▸ h₃⟩
  | sendFailed eintr hlen => exact ⟨hs.1, hlen ▸ hs.2.2⟩
  | sendRetry hlen hrun => exact ⟨hs.1, hlen ▸ hs.2⟩
  | _ => trivial

/-- **Every step of a client** after SIGINT uses up one of those left. -/
theorem Goes.left (h : Goes answer c c' pc pc') (hg : c.g_shutdown = true)
    (hB : pc = .serving → answer.response_len ≤ B) (hs : pc.Sends B c.response_len) :
    1 + pc'.left B c'.response_len ≤ pc.left B c.response_len := by
  cases h with
  | enter hrun => exact absurd (hg.symm.trans hrun) Bool.noConfusion
  | receive hrec => exact absurd (hg.symm.trans hrec.2.1) Bool.noConfusion
  | pass hrun => exact absurd (hg.symm.trans hrun) Bool.noConfusion
  | retry hrun => exact absurd (hg.symm.trans hrun) Bool.noConfusion
  | sendRetry hlen hrun => exact absurd (hg.symm.trans hrun) Bool.noConfusion
  | answered hlen =>
    have hle := hB rfl
    simp only [ClientPc.left, hlen]
    omega
  | send hlen hlt =>
    simp only [ClientPc.left, hlen]
    omega
  | took n hlen hn =>
    obtain ⟨h₁, h₂, h₃⟩ := hs
    simp only [ClientPc.left, hlen]
    omega
  | _ =>
    simp only [ClientPc.left]
    omega

/-- What an event says of the answers of `skvs_serve`. -/
def Event.AnswersBelow (B : ℕ) : Event → Prop
  | .worker _ (.served answer) => answer.response_len ≤ B
  | _ => True

theorem answer_le {i : ℕ} {clientfd : Fd}
    (h : (Event.worker i (pc.deed clientfd answer)).AnswersBelow B) :
    pc = .serving → answer.response_len ≤ B := by
  rintro rfl
  exact h

theorem left_worker {i : ℕ} (hinv : p.Inv cfg true) (hB : (Event.worker i d).AnswersBelow B)
    (hs : ∀ clientfd pc c, p = .client clientfd pc c → pc.Sends B c.response_len)
    (h : WorkerStep cfg true p d q) : 1 + q.left B ≤ p.left B := by
  cases h with
  | enter hrun => cases hrun
  | retry hrun => cases hrun
  | client answer hpc hnext =>
    rename_i clientfd pc pc' c c'
    have hgoes := goes_of_next (hinv clientfd pc c rfl) hpc hnext
    exact hgoes.left rfl (answer_le hB) (hs clientfd pc c rfl)
  | _ => simp [Place.left, ClientPc.left]

theorem sends_step (hinv : W.Clients cfg) (hB : e.AnswersBelow B) (h : W.Sends B)
    (hs : Step cfg num_threads W e W') : W'.Sends B := by
  cases hs with
  | worker i hstep hallowed =>
    intro j fd pc c hj
    obtain ⟨-, rfl⟩ | ⟨-, hj⟩ := update_cases hj
    · generalize hi : W.workers i = p₀ at hstep
      cases hstep with
      | accept _ buf net sends hbuf => trivial
      | client answer hpc hnext =>
        have hgoes := goes_of_next (hinv i _ _ _ hi) hpc hnext
        have hsends := h i _ _ _ hi
        exact hgoes.sends (answer_le hB) hsends
    · exact h j fd pc c hj
  | create _ hmain hi =>
    intro j fd pc c hj
    obtain ⟨-, hp⟩ | ⟨-, hj⟩ := update_cases hj
    · cases hp
    · exact h j fd pc c hj
  | sigint _ _ =>
    unfold World.Sends
    rw [World.interrupt_workers]
    exact h
  | setup fd hmain hfree =>
    unfold World.Sends
    rw [World.setUp_workers]
    exact h
  | _ => exact h

/-- Not a signal. -/
def Event.isStep : Event → Bool
  | .sigint _ => false
  | _ => true

theorem Setup.left_next (call : Setup) (n : ℕ) :
    1 + call.next.left n ≤ 3 * n + 6 + call.left := by
  cases call <;> simp only [Setup.next, MainPc.left, Setup.left] <;> omega

/-- A step of `main` alone. -/
theorem left_main {k : ℕ} (hx : W.exited = false) (hx' : W'.exited = false)
    (hworkers : W'.workers = W.workers)
    (hle : k + W'.main.left num_threads ≤ W.main.left num_threads) :
    k + W'.left B num_threads ≤ W.left B num_threads := by
  unfold World.left
  rw [hx, hx', hworkers]
  show k + (W'.main.left num_threads + _) ≤ W.main.left num_threads + _
  omega

/-- The process exits. -/
theorem left_exit (hx : W.exited = false) (hpos : 1 ≤ W.main.left num_threads) :
    1 + World.left B num_threads { W with exited := true } ≤ W.left B num_threads := by
  unfold World.left
  rw [hx]
  show 1 + (0 + ∑ i ∈ Finset.range num_threads, (W.workers i).left B)
    ≤ W.main.left num_threads + ∑ i ∈ Finset.range num_threads, (W.workers i).left B
  omega

/-- **Every step of the process** after SIGINT uses up one of those left. -/
theorem left_step (hstop : Stopping cfg num_threads W) (hsends : W.Sends B) (hrun : W.Running)
    (hB : e.AnswersBelow B) (hs : Step cfg num_threads W e W') :
    (if e.isStep then 1 else 0) + W'.left B num_threads ≤ W.left B num_threads := by
  have hx : W.exited = false := hrun.1
  cases hs with
  | sigint handler hhandler =>
    show 0 + _ ≤ _
    unfold World.interrupt
    by_cases hmain : W.main = .setup .signal
    · rw [if_pos hmain]
      have hexit : 1 + World.left B num_threads { W with exited := true } ≤ W.left B num_threads :=
        left_exit hx ?_
      · omega
      · rw [hmain]
        exact Nat.le_add_left 1 _
    · rw [if_neg hmain]
      refine left_main hx hx rfl ?_
      show 0 + (if handler = none ∧ W.main = .asleep then MainPc.waitTest else W.main).left num_threads ≤ _
      split
      · rename_i hasleep
        rw [hasleep.2]
        exact Nat.le_of_eq (Nat.zero_add _)
      · exact Nat.le_of_eq (Nat.zero_add _)
  | worker i hstep hallowed =>
    rename_i d p
    show 1 + _ ≤ _
    have hi : i ∈ Finset.range num_threads := by
      rw [Finset.mem_range, ← Nat.not_le]
      intro hle
      exact hstep.alive.1 ((hstop.inStep.absent_iff i).mpr (hstop.inStep.created_le.trans hle))
    have hsum := sum_update_add (Place.left B) W.workers hi p
    rw [hstop.shutdown] at hstep
    have hinv : (W.workers i).Inv cfg true := fun fd pc c hc =>
      hstop.shutdown ▸ hstop.clients i fd pc c hc
    have hone := left_worker hinv hB (hsends i) hstep
    show 1 + ((if W.exited = true then 0 else W.main.left num_threads)
      + ∑ j ∈ Finset.range num_threads, (update W.workers i p j).left B)
      ≤ (if W.exited = true then 0 else W.main.left num_threads)
        + ∑ j ∈ Finset.range num_threads, (W.workers j).left B
    omega
  | create i hmain hi =>
    have hsum := sum_update_add (Place.left B) W.workers (Finset.mem_range.mpr hi) .loop
    have habsent : W.workers i = .absent := by
      rw [hstop.inStep.absent_iff, hmain]
      exact Nat.le_refl i
    rw [habsent] at hsum
    unfold World.left
    rw [hmain]
    show 1 + ((if W.exited = true then 0 else (MainPc.create (i + 1)).left num_threads)
      + ∑ j ∈ Finset.range num_threads, (update W.workers i .loop j).left B) ≤ _
    rw [hx]
    show 1 + ((2 * (num_threads - (i + 1)) + num_threads + 6)
      + ∑ j ∈ Finset.range num_threads, (update W.workers i .loop j).left B)
      ≤ (2 * (num_threads - i) + num_threads + 6)
        + ∑ j ∈ Finset.range num_threads, (W.workers j).left B
    simp only [Place.left] at hsum ⊢
    omega
  | setup fd hmain hfree =>
    rename_i call
    apply left_main hx
    · rw [World.setUp_exited, hx]
    · exact World.setUp_workers W fd call
    · rw [World.setUp_main, hmain]
      exact Setup.left_next call num_threads
  | setupFails hmain =>
    apply left_exit hx
    rw [hmain]
    simp only [MainPc.left]
    omega
  | createFails hmain hi =>
    apply left_exit hx
    rw [hmain]
    simp only [MainPc.left]
    omega
  | waitTest hmain =>
    show 1 + _ ≤ _
    refine left_main hx hx rfl ?_
    rw [hmain, hstop.shutdown]
    exact Nat.le_of_eq (Nat.add_comm 1 _)
  | created hmain _ | join _ hmain _ _ | joined hmain _ | pause hmain | shutdown hmain
  | close _ hmain _ | destroy hmain =>
    show 1 + _ ≤ _
    refine left_main hx hx rfl ?_
    rw [hmain]
    simp only [MainPc.left]
    omega

/-- As much as can be left at any time. -/
theorem left_bound (hsends : W.Sends B) :
    W.left B num_threads ≤ 3 * num_threads + 13 + num_threads * (9 + 2 * B) := by
  have hmain : W.main.left num_threads ≤ 3 * num_threads + 13 := by
    cases W.main with
    | setup call => cases call <;> simp only [MainPc.left, Setup.left] <;> omega
    | _ =>
      simp only [MainPc.left]
      omega
  have hworkers : ∑ i ∈ Finset.range num_threads, (W.workers i).left B
      ≤ num_threads * (9 + 2 * B) := by
    have hone : ∀ i ∈ Finset.range num_threads, (W.workers i).left B ≤ 9 + 2 * B := by
      intro i _
      cases hi : W.workers i with
      | client clientfd pc c => exact ClientPc.left_le (hsends i clientfd pc c hi)
      | _ =>
        simp only [Place.left]
        omega
    calc ∑ i ∈ Finset.range num_threads, (W.workers i).left B
        ≤ ∑ _i ∈ Finset.range num_threads, (9 + 2 * B) := Finset.sum_le_sum hone
      _ = num_threads * (9 + 2 * B) := by
        rw [Finset.sum_const_nat fun _ _ => rfl, Finset.card_range]
  unfold World.left
  split
  · omega
  · omega

theorem sends_of_reach
    (h : Reach ((serverSys cfg num_threads).restrict fun _ e _ => e.AnswersBelow B) tr W) :
    W.Sends B := by
  have hinv : W.Clients cfg ∧ W.Sends B := by
    apply h.state_invariant
    · rintro W ⟨-, -, -, -, -, habsent, -⟩
      constructor
      · intro i fd pc c hi
        rw [habsent i] at hi
        cases hi
      · intro i fd pc c hi
        rw [habsent i] at hi
        cases hi
    · rintro W e W' hW ⟨⟨-, hs⟩, hB⟩
      exact ⟨clients_step hW.1 hs, sends_step hW.1 hB hW.2 hs⟩
  exact hinv.2

/-- **After SIGINT the process takes a bounded number of steps**, in every interleaving: when no
answer of `skvs_serve` is longer than `B`, every thread together takes no more than this many. -/
theorem steps_after_sigint {handler : Option ℕ}
    (h : Reach (serverSys cfg num_threads) (tr₁ ++ .sigint handler :: tr₂) W) (B : ℕ)
    (hB : ∀ e ∈ tr₁ ++ .sigint handler :: tr₂, e.AnswersBelow B) :
    tr₂.countP Event.isStep ≤ 3 * num_threads + 13 + num_threads * (9 + 2 * B) := by
  have hall := h.restrict_events hB
  obtain rfl | ⟨W₁, hstop, h₁, htail⟩ := stopping_of_reach hall
  · exact Nat.zero_le _
  · have hsends := sends_of_reach h₁
    have hbudget := htail.budget (p := Event.isStep) (World.left B num_threads)
      (I := fun W => Stopping cfg num_threads W ∧ W.Sends B) ⟨hstop, hsends⟩
      (fun W e W' hW hs => ⟨hW.1.step hs.1.2, sends_step hW.1.clients hs.2 hW.2 hs.1.2⟩)
      (fun W e W' hW hs => left_step hW.1 hW.2 hs.1.1 hs.2 hs.1.2)
    have hbound : W₁.left B num_threads ≤ 3 * num_threads + 13 + num_threads * (9 + 2 * B) :=
      left_bound hsends
    omega

/-- The theorem for the run of one worker, whose store answers with one byte. -/
theorem steps_after_sigint_sample : ∃ W, Reach (serverSys echoConfig 1)
    (sampleWork ++ .sigint none :: sampleShutdown) W ∧
      sampleShutdown.countP Event.isStep ≤ 3 * 1 + 13 + 1 * (9 + 2 * 1) := by
  obtain ⟨W, h, -⟩ := exists_sample
  have hshort : ∀ e ∈ sampleWork ++ .sigint none :: sampleShutdown, e.AnswersBelow 1 := by
    simp [sampleWork, sampleShutdown, sampleClosing, sampleEnding, Event.AnswersBelow]
  exact ⟨W, h, steps_after_sigint h 1 hshort⟩

/-! ### Where the process comes to rest -/

/-- A step that waits for something outside the process: a call on a connection returns, or one of
`accept` while the socket listens; `skvs_serve` returns; a signal arrives. -/
def Event.Waits (W : World) : Event → Prop
  | .sigint _ => True
  | .worker _ (.accept _) => True
  | .worker _ (.refuse _) => W.fds W.listenfd = .listener
  | .worker _ (.recv _) => True
  | .worker _ (.send _) => True
  | .worker _ (.served _) => True
  | _ => False

/-- A worker that waits for its client or for the store. -/
def Place.Blocked (p : Place) : Prop :=
  ∃ clientfd pc c, p = .client clientfd pc c ∧ (pc = .recv ∨ pc = .serving ∨ ∃ sent, pc = .send sent)

/-- A worker moves on by itself, unless it waits. -/
theorem worker_moves {i : ℕ} (hstop : Stopping cfg num_threads W) (hrun : W.Running)
    (halive : (W.workers i).alive) (hclosed : W.fds W.listenfd ≠ .listener)
    (hblocked : ¬ (W.workers i).Blocked) :
    ∃ e W', (serverSys cfg num_threads).step W e W' ∧ ¬ e.Waits W := by
  have hmove : ∀ d p, WorkerStep cfg W.g_shutdown (W.workers i) d p → d.Allowed W →
      ¬ (Event.worker i d).Waits W →
      ∃ e W', (serverSys cfg num_threads).step W e W' ∧ ¬ e.Waits W :=
    fun d p hstep hallowed hwaits => ⟨_, _, ⟨hrun, .worker i hstep hallowed⟩, hwaits⟩
  cases hi : W.workers i with
  | absent => exact absurd hi halive.1
  | returned => exact absurd hi halive.2
  | loop =>
    rw [hi] at hmove
    exact hmove .look .returned (.leave hstop.shutdown) trivial id
  | accepting =>
    rw [hi] at hmove
    exact hmove (.refuse false) (.refused false) (.refuse false) trivial hclosed
  | refused eintr =>
    rw [hi] at hmove
    exact hmove .look .returned (.stop hstop.shutdown) trivial id
  | client clientfd pc c =>
    have hinv := hstop.clients i clientfd pc c hi
    rw [hi] at hmove hblocked
    by_cases hpc : pc = .close
    · subst hpc
      exact hmove (.close clientfd) .loop .close trivial id
    · obtain ⟨pc', c', hok, -⟩ := wp_clientNext ⟨0, 0⟩ hpc hinv.refresh
      refine hmove _ _ (.client ⟨0, 0⟩ hpc hok) ?_ ?_
      · cases pc <;> trivial
      · cases pc with
        | recv => exact absurd ⟨clientfd, .recv, c, rfl, Or.inl rfl⟩ hblocked
        | serving => exact absurd ⟨clientfd, .serving, c, rfl, Or.inr (Or.inl rfl)⟩ hblocked
        | send sent =>
          exact absurd ⟨clientfd, .send sent, c, rfl, Or.inr (Or.inr ⟨sent, rfl⟩)⟩ hblocked
        | _ => exact id

/-- `main` moves on by itself, unless it sleeps or joins a worker. -/
theorem main_moves (hin : InStep num_threads W) (hrun : W.Running) (hasleep : W.main ≠ .asleep)
    (hjoin : ∀ j, W.main ≠ .join j) :
    ∃ W', (serverSys cfg num_threads).step W (.main W.main) W' := by
  cases hmain : W.main with
  | setup call => exact ⟨_, hrun, .setupFails hmain⟩
  | create i =>
    by_cases hi : i < num_threads
    · exact ⟨_, hrun, .createFails hmain hi⟩
    · exact ⟨_, hrun, .created hmain (Nat.not_lt.mp hi)⟩
  | waitTest => exact ⟨_, hrun, .waitTest hmain⟩
  | pause => exact ⟨_, hrun, .pause hmain⟩
  | asleep => exact absurd hmain hasleep
  | shutdown => exact ⟨_, hrun, .shutdown hmain⟩
  | close =>
    have hsock := hin.sockfd_eq
    rw [hmain] at hsock
    exact ⟨_, hrun, .close _ hmain hsock⟩
  | join j => exact absurd hmain (hjoin j)
  | skvs_destroy => exact ⟨_, hrun, .destroy hmain⟩
  | returned => exact absurd hmain hrun.2

/-- **Where the shutdown ends**: after SIGINT, as long as the process has not exited, a state in which
no thread can go on by itself is one of three.  `main` has returned; it sleeps in `pause`, the signal
having come before it fell asleep or gone to a worker; or it joins a worker that waits for its client
or for the store. -/
theorem shutdown_completes (h : Reach (serverSys cfg num_threads) tr W) (hg : W.g_shutdown = true)
    (hx : W.exited = false)
    (hrest : ∀ e W', (serverSys cfg num_threads).step W e W' → e.Waits W) :
    W.main = .returned ∨ W.main = .asleep ∨
      ∃ j < num_threads, W.main = .join j ∧ (W.workers j).Blocked := by
  obtain ⟨hin, howned⟩ := inStep_owned h
  have hstop : Stopping cfg num_threads W := ⟨hg, clients_of_reach h, hin, howned⟩
  by_cases hreturned : W.main = .returned
  · exact Or.inl hreturned
  have hrun : W.Running := ⟨hx, hreturned⟩
  by_cases hasleep : W.main = .asleep
  · exact Or.inr (Or.inl hasleep)
  by_cases hjoin : ∃ j, W.main = .join j
  · obtain ⟨j, hmain⟩ := hjoin
    by_cases hj : j < num_threads
    · refine Or.inr (Or.inr ⟨j, hj, hmain, ?_⟩)
      by_contra hblocked
      by_cases hdone : W.workers j = .returned
      · exact hrest _ _ ⟨hrun, .join j hmain hj hdone⟩
      · have hsock := hin.sockfd_eq
        have habsent := hin.absent_iff j
        rw [hmain] at hsock habsent
        have hclosed : W.fds W.listenfd ≠ .listener := by
          intro hl
          rw [hin.listener_iff, hsock] at hl
          cases hl
        have halive : (W.workers j).alive :=
          ⟨fun hab => absurd (habsent.mp hab) (Nat.not_le.mpr hj), hdone⟩
        obtain ⟨e, W', hs, hwaits⟩ := worker_moves hstop hrun halive hclosed hblocked
        exact hwaits (hrest e W' hs)
    · exact absurd (hrest _ _ ⟨hrun, .joined hmain (Nat.not_lt.mp hj)⟩) id
  · obtain ⟨W', hs⟩ := main_moves hin hrun hasleep fun j hj => hjoin ⟨j, hj⟩
    exact absurd (hrest _ _ hs) id

/-- The theorem where `main` joins a worker that waits for its client. -/
theorem shutdown_completes_sample :
    Reach (serverSys echoConfig 1) (sampleWork ++ .sigint none :: sampleClosing) sampleBlocked ∧
      (sampleBlocked.main = .returned ∨ sampleBlocked.main = .asleep ∨
        ∃ j < 1, sampleBlocked.main = .join j ∧ (sampleBlocked.workers j).Blocked) := by
  have hrest : ∀ e W', (serverSys echoConfig 1).step sampleBlocked e W' → e.Waits sampleBlocked := by
    rintro e W' ⟨-, hs⟩
    cases hs with
    | sigint handler _ => trivial
    | worker i hstep _ =>
      by_cases hi : i = 0
      · subst hi
        generalize hp : sampleBlocked.workers 0 = p at hstep
        cases hp
        cases hstep
        trivial
      · have habsent : sampleBlocked.workers i = .absent := by
          show update (fun _ => Place.absent) 0 _ i = _
          rw [update_of_ne hi]
        rw [habsent] at hstep
        cases hstep
    | join j hmain _ hdone =>
      cases hmain
      cases hdone
    | joined hmain hj =>
      cases hmain
      exact absurd hj (by decide)
    | _ => contradiction
  exact ⟨reach_sampleClosing, shutdown_completes reach_sampleClosing rfl rfl hrest⟩

end SystemProgramming.Server
