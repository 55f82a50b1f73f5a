import SystemProgramming.Server.Buffer
import SystemProgramming.Server.Workers
import SystemProgramming.Lib.Ownership
import SystemProgramming.Lib.Budget

/-!
# The store and the descriptors outlive their users

`main` destroys the store after it has joined every worker, so no call of `skvs_serve` can find it
destroyed.  A worker owns the descriptor it has accepted until it closes it: the descriptors of
clients are exactly those that some worker owns, no two workers own the same one, and `main` closes
the listening socket and nothing else.

* `skvs_destroy_last`: `skvs_destroy` is the last step of a run, and comes after every worker.
* `client_closed_once`: every accepted client is closed exactly once, by its own worker.
-/

namespace SystemProgramming.Server

open Function

variable {cfg : Config} {num_threads : ℕ} {g : Bool} {W W' : World} {e : Event} {p q : Place}
  {d : Deed} {tr : List Event}

/-! ### What a step of a worker can be -/

theorem WorkerStep.alive (h : WorkerStep cfg g p d q) : p ≠ .absent ∧ p ≠ .returned ∧ q ≠ .absent := by
  cases h <;> simp

/-- The descriptor that a worker owns. -/
def Place.clientfd : Place → Option Fd
  | .client clientfd _ _ => some clientfd
  | _ => none

theorem ClientPc.deed_cases {pc : ClientPc} (clientfd : Fd) (answer : Served) (hpc : pc ≠ .close)
    (fd : Fd) : pc.deed clientfd answer ≠ .accept fd ∧ pc.deed clientfd answer ≠ .close fd := by
  cases pc with
  | close => exact absurd rfl hpc
  | _ => exact ⟨Deed.noConfusion, Deed.noConfusion⟩

/-- What a step does to the descriptor of the worker. -/
theorem WorkerStep.clientfd_cases (h : WorkerStep cfg g p d q) :
    (∃ fd, d = .accept fd ∧ p.clientfd = none ∧ q.clientfd = some fd) ∨
      (∃ fd, d = .close fd ∧ p.clientfd = some fd ∧ q.clientfd = none) ∨
      (∀ fd, d ≠ .accept fd ∧ d ≠ .close fd) ∧ q.clientfd = p.clientfd := by
  cases h with
  | accept fd buf net sends _ => exact Or.inl ⟨fd, rfl, rfl, rfl⟩
  | close => exact Or.inr (Or.inl ⟨_, rfl, rfl, rfl⟩)
  | client answer hpc _ => exact Or.inr (Or.inr ⟨ClientPc.deed_cases _ answer hpc, rfl⟩)
  | _ => exact Or.inr (Or.inr ⟨fun _ => ⟨Deed.noConfusion, Deed.noConfusion⟩, rfl⟩)

/-- The descriptor that a call of a worker is given. -/
def Deed.argument : Deed → Option Fd
  | .recv fd => some fd
  | .send fd => some fd
  | .close fd => some fd
  | _ => none

theorem ClientPc.deed_argument {pc : ClientPc} {clientfd fd : Fd} {answer : Served}
    (h : (pc.deed clientfd answer).argument = some fd) : clientfd = fd := by
  cases pc with
  | recv => exact Option.some.inj h
  | send _ => exact Option.some.inj h
  | close => exact Option.some.inj h
  | _ => cases h

/-- A worker only ever uses its own descriptor. -/
theorem WorkerStep.argument (h : WorkerStep cfg g p d q) {fd : Fd} (hd : d.argument = some fd) :
    p.clientfd = some fd := by
  cases h with
  | client answer _ _ => exact congrArg some (ClientPc.deed_argument hd)
  | close => exact hd
  | _ => cases hd

theorem Deed.effect_of_ne {fds : Fd → Descriptor} (h : ∀ fd, d ≠ .accept fd ∧ d ≠ .close fd) :
    d.effect fds = fds := by
  cases d with
  | accept fd => exact absurd rfl (h fd).1
  | close fd => exact absurd rfl (h fd).2
  | _ => rfl

/-! ### How far the threads are -/

/-- The workers that have been created. -/
def MainPc.created (num_threads : ℕ) : MainPc → ℕ
  | .setup _ => 0
  | .create i => i
  | _ => num_threads

/-- The workers that have been joined. -/
def MainPc.joined (num_threads : ℕ) : MainPc → ℕ
  | .join j => j
  | .skvs_destroy => num_threads
  | .returned => num_threads
  | _ => 0

/-- The store as the place of `main` tells it. -/
def MainPc.ctx : MainPc → Ctx
  | .setup .signal => .absent
  | .setup .skvs_init => .absent
  | .returned => .destroyed
  | _ => .live

/-- `main` holds the listening socket. -/
def MainPc.listens : MainPc → Bool
  | .setup .signal => false
  | .setup .skvs_init => false
  | .setup .socket => false
  | .join _ => false
  | .skvs_destroy => false
  | .returned => false
  | _ => true

/-- What the place of `main` says about everything else. -/
structure InStep (num_threads : ℕ) (W : World) : Prop where
  created_le : W.main.created num_threads ≤ num_threads
  absent_iff : ∀ i, W.workers i = .absent ↔ W.main.created num_threads ≤ i
  joined_le : W.main.joined num_threads ≤ num_threads
  joined : ∀ i < W.main.joined num_threads, W.workers i = .returned
  ctx_eq : W.ctx = W.main.ctx
  sockfd_eq : W.sockfd = if W.main.listens = true then some W.listenfd else none
  listener_iff : ∀ fd, W.fds fd = .listener ↔ W.sockfd = some fd

theorem inStep_init (h : (serverSys cfg num_threads).init W) : InStep num_threads W := by
  obtain ⟨-, -, hsock, hctx, hmain, habsent, hfds⟩ := h
  refine ⟨?_, ?_, ?_, ?_, ?_, ?_, ?_⟩
  · rw [hmain]
    exact Nat.zero_le _
  · intro i
    rw [hmain]
    exact iff_of_true (habsent i) (Nat.zero_le _)
  · rw [hmain]
    exact Nat.zero_le _
  · rw [hmain]
    exact fun i hi => absurd hi (Nat.not_lt_zero i)
  · rw [hmain, hctx]
    rfl
  · rw [hmain, hsock]
    rfl
  · intro fd
    rw [hsock]
    refine iff_of_false ?_ fun h => by cases h
    obtain hfd | hfd := hfds fd
    · rw [hfd]
      exact Descriptor.noConfusion
    · rw [hfd]
      exact Descriptor.noConfusion

/-- `main` moves on to a place that says the same about the rest. -/
theorem InStep.goto {pc : MainPc} (h : InStep num_threads W)
    (hcreated : pc.created num_threads = W.main.created num_threads)
    (hjoined : pc.joined num_threads = W.main.joined num_threads) (hctx : pc.ctx = W.main.ctx)
    (hlistens : pc.listens = W.main.listens) : InStep num_threads { W with main := pc } where
  created_le := by
    rw [hcreated]
    exact h.created_le
  absent_iff i := by
    rw [hcreated]
    exact h.absent_iff i
  joined_le := by
    rw [hjoined]
    exact h.joined_le
  joined := by
    rw [hjoined]
    exact h.joined
  ctx_eq := h.ctx_eq.trans hctx.symm
  sockfd_eq := by
    rw [hlistens]
    exact h.sockfd_eq
  listener_iff := h.listener_iff

theorem InStep.exit (h : InStep num_threads W) : InStep num_threads { W with exited := true } :=
  ⟨h.created_le, h.absent_iff, h.joined_le, h.joined, h.ctx_eq, h.sockfd_eq, h.listener_iff⟩

theorem InStep.interrupt (h : InStep num_threads W) (handler : Option ℕ) :
    InStep num_threads (W.interrupt handler) := by
  unfold World.interrupt
  split
  · exact h.exit
  · have hset : InStep num_threads { W with g_shutdown := true } :=
      ⟨h.created_le, h.absent_iff, h.joined_le, h.joined, h.ctx_eq, h.sockfd_eq, h.listener_iff⟩
    split
    · rename_i hasleep
      apply hset.goto <;> rw [show ({ W with g_shutdown := true } : World).main = _ from hasleep.2] <;>
        rfl
    · exact hset

/-- A step of a worker leaves no worker absent and joins none; it frees no listening socket. -/
theorem InStep.worker {i : ℕ} (h : InStep num_threads W)
    (hstep : WorkerStep cfg W.g_shutdown (W.workers i) d p) (hallowed : d.Allowed W)
    (howned : ∀ fd, (W.workers i).clientfd = some fd → W.fds fd = .client) :
    InStep num_threads { W with fds := d.effect W.fds, workers := update W.workers i p } where
  created_le := h.created_le
  absent_iff j := by
    by_cases hj : j = i
    · subst hj
      show update W.workers j p j = _ ↔ _
      rw [update_self]
      refine iff_of_false hstep.alive.2.2 ?_
      rw [← h.absent_iff]
      exact hstep.alive.1
    · show update W.workers i p j = _ ↔ _
      rw [update_of_ne hj]
      exact h.absent_iff j
  joined_le := h.joined_le
  joined j hj := by
    have hreturned := h.joined j hj
    have hij : j ≠ i := by
      rintro rfl
      exact hstep.alive.2.1 hreturned
    show update W.workers i p j = _
    rw [update_of_ne hij]
    exact hreturned
  ctx_eq := h.ctx_eq
  sockfd_eq := h.sockfd_eq
  listener_iff fd := by
    rw [← h.listener_iff]
    obtain ⟨fd', rfl, -, -⟩ | ⟨fd', rfl, hp, -⟩ | ⟨hd, -⟩ := hstep.clientfd_cases
    · show update W.fds fd' .client fd = _ ↔ _
      by_cases hfd : fd = fd'
      · subst hfd
        rw [update_self, hallowed.2]
        exact iff_of_false Descriptor.noConfusion Descriptor.noConfusion
      · rw [update_of_ne hfd]
    · show update W.fds fd' .free fd = _ ↔ _
      by_cases hfd : fd = fd'
      · subst hfd
        rw [update_self, howned fd hp]
        exact iff_of_false Descriptor.noConfusion Descriptor.noConfusion
      · rw [update_of_ne hfd]
    · rw [Deed.effect_of_ne hd]

/-- A call of the setup that has succeeded. -/
theorem InStep.setUp {call : Setup} {fd : Fd} (h : InStep num_threads W)
    (hmain : W.main = .setup call) (hfree : W.fds fd = .free) :
    InStep num_threads (W.setUp fd call) := by
  have habsent : ∀ i, W.workers i = .absent := by
    intro i
    rw [h.absent_iff, hmain]
    exact Nat.zero_le i
  have hnone : ∀ i < 0, W.workers i = .returned := fun i hi => absurd hi (Nat.not_lt_zero i)
  have hctx := h.ctx_eq
  have hsock := h.sockfd_eq
  rw [hmain] at hctx hsock
  cases call with
  | skvs_init =>
    exact ⟨Nat.zero_le _, fun i => iff_of_true (habsent i) (Nat.zero_le i), Nat.zero_le _, hnone, rfl,
      hsock, h.listener_iff⟩
  | socket =>
    refine ⟨Nat.zero_le _, fun i => iff_of_true (habsent i) (Nat.zero_le i), Nat.zero_le _, hnone,
      hctx, rfl, fun fd' => ?_⟩
    show update W.fds fd .listener fd' = _ ↔ some fd = some fd'
    rw [Option.some_inj]
    by_cases hfd : fd' = fd
    · subst hfd
      rw [update_self]
      exact iff_of_true rfl rfl
    · rw [update_of_ne hfd]
      refine iff_of_false (fun hl => ?_) (Ne.symm hfd)
      rw [h.listener_iff, hsock] at hl
      cases hl
  | _ =>
    exact ⟨Nat.zero_le _, fun i => iff_of_true (habsent i) (Nat.zero_le i), Nat.zero_le _, hnone,
      hctx, hsock, h.listener_iff⟩

/-- **Every step** keeps the process in step with `main`. -/
theorem InStep.step (h : InStep num_threads W)
    (howned : ∀ i fd, (W.workers i).clientfd = some fd → W.fds fd = .client)
    (hstep : Step cfg num_threads W e W') : InStep num_threads W' := by
  cases hstep with
  | sigint handler _ => exact h.interrupt handler
  | worker i hstep hallowed => exact h.worker hstep hallowed (howned i)
  | setup fd hmain hfree => exact h.setUp hmain hfree
  | setupFails _ => exact h.exit
  | create i hmain hi =>
    have hctx := h.ctx_eq
    have hsock := h.sockfd_eq
    rw [hmain] at hctx hsock
    refine ⟨hi, fun j => ?_, Nat.zero_le _, fun j hj => absurd hj (Nat.not_lt_zero j), hctx, hsock,
      h.listener_iff⟩
    show update W.workers i .loop j = .absent ↔ i + 1 ≤ j
    have hj := h.absent_iff j
    rw [hmain] at hj
    by_cases hij : j = i
    · rw [hij, update_self]
      exact iff_of_false Place.noConfusion (by omega)
    · rw [update_of_ne hij, hj]
      show i ≤ j ↔ _
      omega
  | createFails _ _ => exact h.exit
  | created hmain hi =>
    have hle := h.created_le
    rw [hmain] at hle
    apply h.goto <;> rw [hmain]
    · exact Nat.le_antisymm hi hle
    · rfl
    · rfl
    · rfl
  | waitTest hmain =>
    split <;> (apply h.goto <;> rw [hmain] <;> rfl)
  | pause hmain => apply h.goto <;> rw [hmain] <;> rfl
  | shutdown hmain => apply h.goto <;> rw [hmain] <;> rfl
  | close fd hmain hfd =>
    have hctx := h.ctx_eq
    have habsent := h.absent_iff
    rw [hmain] at hctx habsent
    refine ⟨Nat.le_refl _, habsent, Nat.zero_le _, fun j hj => absurd hj (Nat.not_lt_zero j), hctx, rfl,
      fun fd' => ?_⟩
    show update W.fds fd .free fd' = _ ↔ none = some fd'
    refine iff_of_false (fun hl => ?_) fun h => by cases h
    by_cases hfd' : fd' = fd
    · rw [hfd', update_self] at hl
      cases hl
    · rw [update_of_ne hfd', h.listener_iff, hfd] at hl
      exact hfd' (Option.some.inj hl).symm
  | join j hmain hj hdone =>
    have hctx := h.ctx_eq
    have habsent := h.absent_iff
    have hsock := h.sockfd_eq
    have hjoined := h.joined
    rw [hmain] at hctx habsent hsock hjoined
    refine ⟨Nat.le_refl _, habsent, hj, fun i hi => ?_, hctx, hsock, h.listener_iff⟩
    obtain hlt | rfl := Nat.lt_succ_iff_lt_or_eq.mp hi
    · exact hjoined i hlt
    · exact hdone
  | joined hmain hj =>
    have hle := h.joined_le
    rw [hmain] at hle
    apply h.goto <;> rw [hmain]
    · rfl
    · exact Nat.le_antisymm hj hle
    · rfl
    · rfl
  | destroy hmain =>
    have habsent := h.absent_iff
    have hsock := h.sockfd_eq
    have hjoined := h.joined
    rw [hmain] at habsent hsock hjoined
    exact ⟨Nat.le_refl _, habsent, Nat.le_refl _, hjoined, rfl, hsock, h.listener_iff⟩

/-! ### Who owns a descriptor -/

/-- The descriptors of clients are those that workers own, each by one. -/
def World.Owned (W : World) : Prop :=
  Owns (fun i => (W.workers i).clientfd) fun fd => W.fds fd = .client

theorem clientfd_update (workers : ℕ → Place) (i : ℕ) (p : Place) :
    (fun j => (update workers i p j).clientfd)
      = update (fun j => (workers j).clientfd) i p.clientfd :=
  comp_update Place.clientfd workers i p

theorem owned_worker {i : ℕ} (h : W.Owned)
    (hstep : WorkerStep cfg W.g_shutdown (W.workers i) d p) (hallowed : d.Allowed W) :
    World.Owned { W with fds := d.effect W.fds, workers := update W.workers i p } := by
  show Owns (fun j => (update W.workers i p j).clientfd) _
  rw [clientfd_update]
  obtain ⟨fd, rfl, hp, hq⟩ | ⟨fd, rfl, hp, hq⟩ | ⟨hd, hq⟩ := hstep.clientfd_cases
  · have hfree : W.fds fd ≠ .client := by
      rw [hallowed.2]
      exact Descriptor.noConfusion
    rw [hq]
    refine (Owns.acquire h hp hfree).congr fun fd' => ?_
    show update W.fds fd .client fd' = _ ↔ _
    by_cases hfd : fd' = fd
    · rw [hfd, update_self]
      exact iff_of_true rfl (Or.inl rfl)
    · rw [update_of_ne hfd, or_iff_right hfd]
  · rw [hq]
    refine (Owns.release h hp).congr fun fd' => ?_
    show update W.fds fd .free fd' = _ ↔ _
    by_cases hfd : fd' = fd
    · rw [hfd, update_self]
      exact iff_of_false Descriptor.noConfusion fun hand => hand.1 rfl
    · rw [update_of_ne hfd]
      exact (and_iff_right hfd).symm
  · rw [hq, update_eq_self_iff.mpr rfl, Deed.effect_of_ne hd]
    exact h

/-- A descriptor that is no client's turns into one that is no client's. -/
theorem owned_fds {fd : Fd} {x : Descriptor} (h : W.Owned) (hfd : W.fds fd ≠ .client)
    (hx : x ≠ .client) : Owns (fun i => (W.workers i).clientfd) fun fd' =>
      update W.fds fd x fd' = .client := by
  apply Owns.congr h
  intro fd'
  by_cases heq : fd' = fd
  · rw [heq, update_self]
    exact iff_of_false hx hfd
  · rw [update_of_ne heq]

theorem owned_step (h : W.Owned) (hin : InStep num_threads W)
    (hstep : Step cfg num_threads W e W') : W'.Owned := by
  cases hstep with
  | sigint _ _ =>
    unfold World.Owned
    rw [World.interrupt_workers, World.interrupt_fds]
    exact h
  | worker i hstep hallowed => exact owned_worker h hstep hallowed
  | setup fd hmain hfree =>
    rename_i call
    cases call with
    | socket =>
      refine owned_fds h ?_ Descriptor.noConfusion
      rw [hfree]
      exact Descriptor.noConfusion
    | _ => exact h
  | create i hmain hi =>
    show Owns (fun j => (update W.workers i .loop j).clientfd) _
    rw [clientfd_update, update_eq_self_iff.mpr]
    · exact h
    · have habsent : W.workers i = .absent := by
        rw [hin.absent_iff, hmain]
        exact Nat.le_refl i
      rw [habsent]
      rfl
  | close fd hmain hfd =>
    refine owned_fds h ?_ Descriptor.noConfusion
    rw [(hin.listener_iff _).mpr hfd]
    exact Descriptor.noConfusion
  | _ => exact h

/-- **The invariant** of every run. -/
theorem inStep_owned (h : Reach (serverSys cfg num_threads) tr W) :
    InStep num_threads W ∧ W.Owned := by
  apply h.state_invariant
  · intro W hinit
    refine ⟨inStep_init hinit, ?_⟩
    obtain ⟨-, -, -, -, -, habsent, hfds⟩ := hinit
    apply Owns.of_none
    · intro i
      rw [habsent i]
      rfl
    · intro fd hfd
      obtain hfd' | hfd' := hfds fd
      · rw [hfd'] at hfd
        cases hfd
      · rw [hfd'] at hfd
        cases hfd
  · intro W e W' hW hs
    have howned : ∀ i fd, (W.workers i).clientfd = some fd → W.fds fd = .client :=
      fun i fd hfd => (hW.2.owned_iff fd).mpr ⟨i, hfd⟩
    exact ⟨hW.1.step howned hs.2, owned_step hW.2 hW.1 hs.2⟩

/-! ### The store -/

/-- A worker that has been created and has not returned. -/
def Place.alive (p : Place) : Prop := p ≠ .absent ∧ p ≠ .returned

/-- While a worker is alive, `main` has neither closed down the store nor returned. -/
theorem InStep.live {i : ℕ} (h : InStep num_threads W) (hi : (W.workers i).alive) :
    W.main.ctx = .live := by
  have hcreated : i < W.main.created num_threads := by
    rw [← Nat.not_le, ← h.absent_iff]
    exact hi.1
  have hjoined : W.main.joined num_threads ≤ i := by
    rw [← Nat.not_lt]
    exact fun hlt => hi.2 (h.joined i hlt)
  cases hmain : W.main with
  | setup call =>
    rw [hmain] at hcreated
    exact absurd hcreated (Nat.not_lt_zero i)
  | returned =>
    rw [hmain] at hcreated hjoined
    exact absurd hcreated (Nat.not_lt.mpr hjoined)
  | _ => rfl

/-- **The store outlives its users**: as long as a worker is alive the store exists and is not
destroyed, and the call of `skvs_destroy` comes after every worker and is the last step. -/
theorem skvs_destroy_last (h : Reach (serverSys cfg num_threads) tr W) :
    (∀ i, (W.workers i).alive → W.ctx = .live) ∧
      ∀ tr₁ tr₂, tr = tr₁ ++ .main .skvs_destroy :: tr₂ →
        tr₂ = [] ∧ W.main = .returned ∧ ∀ i < num_threads, W.workers i = .returned := by
  refine ⟨fun i hi => ?_, ?_⟩
  · have hin := (inStep_owned h).1
    rw [hin.ctx_eq]
    exact hin.live hi
  · rintro tr₁ tr₂ rfl
    obtain ⟨W₁, W₂, h₁, hs, htail⟩ := h.split_cons
    have hmain : W₂.main = .returned := by
      obtain ⟨-, hs⟩ := hs
      cases hs
      rfl
    obtain ⟨hnil, rfl⟩ := htail.stays fun e W' hs' => hs'.1.2 hmain
    have hjoined := (inStep_owned h).1.joined
    rw [hmain] at hjoined
    exact ⟨hnil, hmain, hjoined⟩

section Sample

/-- The server before its first step. -/
def sampleStart : World where
  g_shutdown := false
  exited := false
  sockfd := none
  listenfd := 0
  fds _ := .free
  ctx := .absent
  main := .setup .signal
  workers _ := .absent

/-- The server with one worker, which is at `p`. -/
def sampleWorld (g_shutdown : Bool) (main : MainPc) (sockfd : Option Fd) (fds : Fd → Descriptor)
    (p : Place) : World where
  g_shutdown := g_shutdown
  exited := false
  sockfd := sockfd
  listenfd := 3
  fds := fds
  ctx := .live
  main := main
  workers := update (fun _ => .absent) 0 p

/-- The descriptors while the server listens. -/
def sampleFds : Fd → Descriptor := update (fun _ => .free) 3 .listener

/-- Two lines, cut in the middle of the second. -/
def sampleNet : List Recv :=
  [.data ⟨[97, newline, 98], by decide, by decide⟩, .data ⟨[newline], by decide, by decide⟩]

/-- A client that has been accepted. -/
def sampleClient : Conn := accepted (List.replicate 512 0) sampleNet []

/-- The first piece has arrived. -/
def sampleRead : Conn :=
  { sampleClient with
    total_buf := [97, newline, 98] ++ List.replicate 509 0, total_used := 3, line_len := 2
    net := sampleNet.tail }

/-- The first line has been passed to the store, which has answered with one byte. -/
def sampleServed : Conn := { sampleRead with served := [[97, newline]], response_len := 1 }

/-- The first line has been consumed, and the second is not complete. -/
def sampleWaiting : Conn :=
  { sampleServed with
    total_buf := [98, newline, 98] ++ List.replicate 509 0, total_used := 1, line_len := -1 }

/-- The second line has arrived, after SIGINT. -/
def sampleLate : Conn :=
  { sampleWaiting with
    g_shutdown := true, total_buf := [98, newline, 98] ++ List.replicate 509 0, total_used := 2
    line_len := 2, net := [] }

/-- The worker serves a line and calls `recv` again, and `main` sleeps. -/
def sampleWork : List Event :=
  [.main (.setup .signal), .main (.setup .skvs_init), .main (.setup .socket),
    .main (.setup .inet_pton), .main (.setup .setsockopt), .main (.setup .bind),
    .main (.setup .listen), .main (.create 0), .main (.create 1), .main .waitTest, .main .pause,
    .worker 0 .look, .worker 0 (.accept 4), .worker 0 .look, .worker 0 .look, .worker 0 (.recv 4),
    .worker 0 .look, .worker 0 .look, .worker 0 .serve, .worker 0 (.served ⟨1, 1⟩), .worker 0 .look,
    .worker 0 (.send 4), .worker 0 .look, .worker 0 .look, .worker 0 .look, .worker 0 .look]

/-- After SIGINT `main` closes the socket and joins the worker. -/
def sampleClosing : List Event := [.main .waitTest, .main .shutdown, .main .close]

/-- The worker gets the rest of the line, closes its client and returns. -/
def sampleEnding : List Event :=
  [.worker 0 (.recv 4), .worker 0 .look, .worker 0 .look, .worker 0 (.close 4), .worker 0 .look,
    .main (.join 0), .main (.join 1), .main .skvs_destroy]

/-- What is done after SIGINT. -/
def sampleShutdown : List Event := sampleClosing ++ sampleEnding

/-- A step of the worker. -/
theorem reach_worker {tr : List Event} {g : Bool} {main : MainPc} {sockfd : Option Fd}
    {fds : Fd → Descriptor} {p q : Place} {d : Deed}
    (h : Reach (serverSys echoConfig 1) tr (sampleWorld g main sockfd fds p)) (hmain : main ≠ .returned)
    (hstep : WorkerStep echoConfig g p d q) (hallowed : d.Allowed (sampleWorld g main sockfd fds p)) :
    Reach (serverSys echoConfig 1) (tr ++ [.worker 0 d])
      (sampleWorld g main sockfd (d.effect fds) q) := by
  have hs : Step echoConfig 1 (sampleWorld g main sockfd fds p) (.worker 0 d) _ :=
    .worker 0 hstep hallowed
  rw [sampleWorld, update_idem] at hs
  exact h.step ⟨⟨rfl, hmain⟩, hs⟩

/-- A step of the worker on its client, while the server runs. -/
theorem reach_client {tr : List Event} {pc pc' : ClientPc} {c c' : Conn} (hpc : pc ≠ .close)
    (h : Reach (serverSys echoConfig 1) tr
      (sampleWorld false .asleep (some 3) (update sampleFds 4 .client) (.client 4 pc c)))
    (hnext : clientNext echoConfig ⟨1, 1⟩ pc { c with g_shutdown := false } = .ok pc' c') :
    Reach (serverSys echoConfig 1) (tr ++ [.worker 0 (pc.deed 4 ⟨1, 1⟩)])
      (sampleWorld false .asleep (some 3) (update sampleFds 4 .client) (.client 4 pc' c')) := by
  have hallowed (W : World) : (pc.deed 4 ⟨1, 1⟩).Allowed W := by
    cases pc <;> trivial
  have hs := reach_worker h MainPc.noConfusion (.client ⟨1, 1⟩ hpc hnext) (hallowed _)
  rwa [Deed.effect_of_ne (ClientPc.deed_cases 4 ⟨1, 1⟩ hpc)] at hs

set_option maxRecDepth 4000 in
/-- `main` until it sleeps, and the worker until it waits for the rest of the second line. -/
theorem reach_sampleWork : Reach (serverSys echoConfig 1) sampleWork
    (sampleWorld false .asleep (some 3) (update sampleFds 4 .client) (.client 4 .recv sampleWaiting)) := by
  have h₀ : Reach (serverSys echoConfig 1) [] sampleStart :=
    .init ⟨rfl, rfl, rfl, rfl, rfl, fun _ => rfl, fun _ => Or.inl rfl⟩
  have hgo : ∀ {pc : MainPc}, pc ≠ .returned → (false = false ∧ pc ≠ .returned) :=
    fun hpc => ⟨rfl, hpc⟩
  have h₁ := h₀.step ⟨hgo MainPc.noConfusion, .setup 3 rfl rfl⟩
  have h₂ := h₁.step ⟨hgo MainPc.noConfusion, .setup 3 rfl rfl⟩
  have h₃ := h₂.step ⟨hgo MainPc.noConfusion, .setup 3 rfl rfl⟩
  have h₄ := h₃.step ⟨hgo MainPc.noConfusion, .setup 4 rfl rfl⟩
  have h₅ := h₄.step ⟨hgo MainPc.noConfusion, .setup 4 rfl rfl⟩
  have h₆ := h₅.step ⟨hgo MainPc.noConfusion, .setup 4 rfl rfl⟩
  have h₇ := h₆.step ⟨hgo MainPc.noConfusion, .setup 4 rfl rfl⟩
  have h₈ := h₇.step ⟨hgo MainPc.noConfusion, .create 0 rfl (by decide)⟩
  have h₉ := h₈.step ⟨hgo MainPc.noConfusion, .created rfl (by decide)⟩
  have h₁₀ := h₉.step ⟨hgo MainPc.noConfusion, .waitTest rfl⟩
  have h₁₁ : Reach _ _ (sampleWorld false .asleep (some 3) sampleFds .loop) :=
    h₁₀.step ⟨hgo MainPc.noConfusion, .pause rfl⟩
  have h₁₂ := reach_worker h₁₁ MainPc.noConfusion (.enter rfl) trivial
  have h₁₃ : Reach _ _ (sampleWorld _ _ _ _ (.client 4 .head sampleClient)) :=
    reach_worker h₁₂ MainPc.noConfusion
      (.accept 4 _ sampleNet [] List.length_replicate) ⟨rfl, rfl⟩
  have h₁₄ : Reach _ _ (sampleWorld _ _ _ _ (.client 4 .receiving sampleClient)) :=
    reach_client ClientPc.noConfusion h₁₃ rfl
  have h₁₅ : Reach _ _ (sampleWorld _ _ _ _ (.client 4 .recv sampleClient)) :=
    reach_client ClientPc.noConfusion h₁₄ rfl
  have h₁₆ : Reach _ _ (sampleWorld _ _ _ _ (.client 4 .receiving sampleRead)) :=
    reach_client ClientPc.noConfusion h₁₅ rfl
  have h₁₇ : Reach _ _ (sampleWorld _ _ _ _ (.client 4 .received sampleRead)) :=
    reach_client ClientPc.noConfusion h₁₆ rfl
  have h₁₈ : Reach _ _ (sampleWorld _ _ _ _ (.client 4 .serve sampleRead)) :=
    reach_client ClientPc.noConfusion h₁₇ rfl
  have h₁₉ : Reach _ _ (sampleWorld _ _ _ _
      (.client 4 .serving { sampleServed with response_len := 0 })) :=
    reach_client ClientPc.noConfusion h₁₈ rfl
  have h₂₀ : Reach _ _ (sampleWorld _ _ _ _ (.client 4 (.sendTest 0) sampleServed)) :=
    reach_client ClientPc.noConfusion h₁₉ rfl
  have h₂₁ : Reach _ _ (sampleWorld _ _ _ _ (.client 4 (.send 0) sampleServed)) :=
    reach_client ClientPc.noConfusion h₂₀ rfl
  have h₂₂ : Reach _ _ (sampleWorld _ _ _ _ (.client 4 (.sendTest 1) sampleServed)) :=
    reach_client ClientPc.noConfusion h₂₁ rfl
  have h₂₃ : Reach _ _ (sampleWorld _ _ _ _ (.client 4 .consume sampleServed)) :=
    reach_client ClientPc.noConfusion h₂₂ rfl
  have h₂₄ : Reach _ _ (sampleWorld _ _ _ _
      (.client 4 .head { sampleWaiting with line_len := 2 })) :=
    reach_client ClientPc.noConfusion h₂₃ rfl
  have h₂₅ : Reach _ _ (sampleWorld _ _ _ _ (.client 4 .receiving sampleWaiting)) :=
    reach_client ClientPc.noConfusion h₂₄ rfl
  exact reach_client ClientPc.noConfusion h₂₅ rfl

/-- `main` joins the worker, which waits for its client. -/
def sampleBlocked : World :=
  sampleWorld true (.join 0) none (update (update sampleFds 4 .client) 3 .free)
    (.client 4 .recv sampleWaiting)

/-- SIGINT, and `main` until it joins the worker. -/
theorem reach_sampleClosing :
    Reach (serverSys echoConfig 1) (sampleWork ++ .sigint none :: sampleClosing) sampleBlocked := by
  have h₁ := reach_sampleWork.step
    ⟨⟨rfl, MainPc.noConfusion⟩, .sigint none fun i hi => by cases hi⟩
  have h₂ := h₁.step ⟨⟨rfl, MainPc.noConfusion⟩, .waitTest rfl⟩
  have h₃ := h₂.step ⟨⟨rfl, MainPc.noConfusion⟩, .shutdown rfl⟩
  exact h₃.step ⟨⟨rfl, MainPc.noConfusion⟩, .close 3 rfl rfl⟩

set_option maxRecDepth 4000 in
theorem exists_sample : ∃ W, Reach (serverSys echoConfig 1)
    (sampleWork ++ .sigint none :: sampleShutdown) W ∧ W.main = .returned := by
  have h₁ : Reach _ _ (sampleWorld _ _ _ _ (.client 4 .receiving sampleLate)) :=
    reach_worker reach_sampleClosing MainPc.noConfusion
      (.client ⟨1, 1⟩ ClientPc.noConfusion rfl) trivial
  have h₂ : Reach _ _ (sampleWorld _ _ _ _ (.client 4 .received sampleLate)) :=
    reach_worker h₁ MainPc.noConfusion (.client ⟨1, 1⟩ ClientPc.noConfusion rfl) trivial
  have h₃ : Reach _ _ (sampleWorld _ _ _ _ (.client 4 .close sampleLate)) :=
    reach_worker h₂ MainPc.noConfusion (.client ⟨1, 1⟩ ClientPc.noConfusion rfl) trivial
  have h₄ := reach_worker h₃ MainPc.noConfusion .close trivial
  have h₅ := reach_worker h₄ MainPc.noConfusion (.leave rfl) trivial
  have h₆ := h₅.step ⟨⟨rfl, MainPc.noConfusion⟩, .join 0 rfl (by decide) rfl⟩
  have h₇ := h₆.step ⟨⟨rfl, MainPc.noConfusion⟩, .joined rfl (by decide)⟩
  have h₈ := h₇.step ⟨⟨rfl, MainPc.noConfusion⟩, .destroy rfl⟩
  exact ⟨_, h₈, rfl⟩

end Sample

/-- The theorem for the run of one worker: `skvs_destroy` is its last step. -/
theorem skvs_destroy_last_sample : ∃ W, Reach (serverSys echoConfig 1)
    (sampleWork ++ .sigint none :: sampleShutdown) W ∧
      (∀ i, (W.workers i).alive → W.ctx = .live) ∧ W.workers 0 = .returned := by
  obtain ⟨W, h, -⟩ := exists_sample
  have hlast := skvs_destroy_last h
  refine ⟨W, h, hlast.1, ?_⟩
  exact (hlast.2 (sampleWork ++ .sigint none :: sampleShutdown.dropLast) [] rfl).2.2 0 (by decide)

/-! ### The descriptors -/

/-- `accept` returns `fd`. -/
def acceptOf (fd : Fd) : Event → Bool
  | .worker _ (.accept fd') => fd' = fd
  | _ => false

/-- `fd` is closed by a worker. -/
def closeOf (fd : Fd) : Event → Bool
  | .worker _ (.close fd') => fd' = fd
  | _ => false

/-- A descriptor as a number of open clients. -/
def Descriptor.open (x : Descriptor) : ℕ := if x = .client then 1 else 0

theorem open_step (hin : InStep num_threads W) (howned : W.Owned)
    (hs : Step cfg num_threads W e W') (fd : Fd) :
    (W'.fds fd).open + (if closeOf fd e then 1 else 0)
      = (W.fds fd).open + if acceptOf fd e then 1 else 0 := by
  cases hs with
  | worker i hstep hallowed =>
    obtain ⟨fd', rfl, -, -⟩ | ⟨fd', rfl, hp, -⟩ | ⟨hd, -⟩ := hstep.clientfd_cases
    · show (update W.fds fd' .client fd).open + 0 = _
      by_cases hfd : fd = fd'
      · subst hfd
        rw [update_self, hallowed.2]
        simp [acceptOf, Descriptor.open]
      · rw [update_of_ne hfd]
        simp [acceptOf, Ne.symm hfd]
    · show (update W.fds fd' .free fd).open + _ = (W.fds fd).open + 0
      by_cases hfd : fd = fd'
      · subst hfd
        rw [update_self, (howned.owned_iff fd).mpr ⟨_, hp⟩]
        simp [closeOf, Descriptor.open]
      · rw [update_of_ne hfd]
        simp [closeOf, Ne.symm hfd]
    · rename_i d _
      rw [Deed.effect_of_ne hd]
      cases d with
      | accept fd' => exact absurd rfl (hd fd').1
      | close fd' => exact absurd rfl (hd fd').2
      | _ => rfl
  | setup fd' hmain hfree =>
    rename_i call
    cases call with
    | socket =>
      show (update W.fds fd' .listener fd).open + 0 = (W.fds fd).open + 0
      by_cases hfd : fd = fd'
      · rw [hfd, update_self, hfree]
        rfl
      · rw [update_of_ne hfd]
    | _ => rfl
  | close fd' hmain hfd' =>
    show (update W.fds fd' .free fd).open + 0 = (W.fds fd).open + 0
    by_cases hfd : fd = fd'
    · rw [hfd, update_self, (hin.listener_iff fd').mpr hfd']
      rfl
    · rw [update_of_ne hfd]
  | sigint _ _ =>
    rw [World.interrupt_fds]
    rfl
  | _ => rfl

/-- **Every client is closed exactly once.**  A descriptor has been accepted as often as closed, and
once more while it is open; each call on it is made by its one owner while it is open; and when `main`
has returned no client is left open, nor the listening socket. -/
theorem client_closed_once (h : Reach (serverSys cfg num_threads) tr W) :
    (∀ fd, tr.countP (acceptOf fd) = tr.countP (closeOf fd) + (W.fds fd).open) ∧
      (∀ tr₁ tr₂ i d fd, tr = tr₁ ++ .worker i d :: tr₂ → d.argument = some fd →
        ∃ W₁, Reach (serverSys cfg num_threads) tr₁ W₁ ∧ W₁.fds fd = .client ∧
          ∀ j, (W₁.workers j).clientfd = some fd ↔ j = i) ∧
      (W.main = .returned → ∀ fd, W.fds fd ≠ .client ∧ W.fds fd ≠ .listener) := by
  refine ⟨fun fd => ?_, ?_, fun hmain fd => ⟨?_, ?_⟩⟩
  · apply h.balance (fun W => (W.fds fd).open) fun _ _ => inStep_owned
    · rintro W ⟨-, -, -, -, -, -, hfds⟩
      obtain hfd | hfd := hfds fd
      · rw [hfd]
        rfl
      · rw [hfd]
        rfl
    · exact fun W e W' hW hs => open_step hW.1 hW.2 hs.2 fd
  · rintro tr₁ tr₂ i d fd rfl hd
    obtain ⟨W₁, W₂, h₁, hrun, hs⟩ := h.at_event
    have howned := (inStep_owned h₁).2
    cases hs with
    | worker _ hstep hallowed =>
      have hfd := hstep.argument hd
      refine ⟨W₁, h₁, (howned.owned_iff fd).mpr ⟨i, hfd⟩, fun j => ⟨fun hj => ?_, ?_⟩⟩
      · exact howned.unique j i fd hj hfd
      · rintro rfl
        exact hfd
  · intro hfd
    obtain ⟨hin, howned⟩ := inStep_owned h
    obtain ⟨i, hi⟩ := (howned.owned_iff fd).mp hfd
    have hjoined := hin.joined
    have habsent := hin.absent_iff i
    rw [hmain] at hjoined habsent
    by_cases hlt : i < num_threads
    · rw [hjoined i hlt] at hi
      cases hi
    · rw [habsent.mpr (Nat.not_lt.mp hlt)] at hi
      cases hi
  · intro hfd
    have hin := (inStep_owned h).1
    have hsock := hin.sockfd_eq
    rw [hin.listener_iff] at hfd
    rw [hmain, hfd] at hsock
    cases hsock

/-- The theorem for the run of one worker: its client is closed once. -/
theorem client_closed_once_sample : ∃ W, Reach (serverSys echoConfig 1)
    (sampleWork ++ .sigint none :: sampleShutdown) W ∧
      (∀ fd, (sampleWork ++ .sigint none :: sampleShutdown).countP (acceptOf fd)
        = (sampleWork ++ .sigint none :: sampleShutdown).countP (closeOf fd) + (W.fds fd).open) ∧
      ∀ fd, W.fds fd ≠ .client ∧ W.fds fd ≠ .listener := by
  obtain ⟨W, h, hmain⟩ := exists_sample
  exact ⟨W, h, (client_closed_once h).1, (client_closed_once h).2.2 hmain⟩

end SystemProgramming.Server
