import SystemProgramming.Server.Client
import SystemProgramming.Lib.Runs

/-!
# `main`, its worker threads and SIGINT

The whole server as a transition system.  A worker takes one step for every test of `g_shutdown` and
for every call that can block, so that `SIGINT` may fall between any two of them, and may be handled
by any thread.  The per-client loop is cut into these steps (`clientNext`) out of the same statements
as in `clientLoop`; what the network does with a connection is again part of the connection, and
`skvs_serve` may answer anything.

Descriptors are numbers of one table, so that a number can be given out again once it is free.
`accept` succeeds on a listening socket only, and returns a number that is free.

* `clientNext`: the next step of a worker in the per-client loop.
* `Step`, `serverSys`: the process.
-/

namespace SystemProgramming.Server

open Exec Function

/-! ### The per-client loop, step by step -/

/-- The next step of the per-client loop. -/
inductive ClientPc where
  -- `while (!g_shutdown && !client_closed)`
  | head
  -- `while (line_len < 0 && !g_shutdown && !client_closed)`, and the call of `recv` in it
  | receiving
  | recv
  -- `if (errno == EINTR && !g_shutdown) continue;`
  | recvFailed (eintr : Bool)
  -- `if (client_closed || g_shutdown) break;`
  | received
  -- `skvs_serve` is called; it is running
  | serve
  | serving
  -- `while (sent < response_len)`, and the call of `send` in it
  | sendTest (sent : ℤ)
  | send (sent : ℤ)
  | sendFailed (sent : ℤ) (eintr : Bool)
  -- `memmove(total_buf, total_buf + line_len, total_used - line_len);`
  | consume
  -- `close(clientfd);`
  | close
  deriving DecidableEq

/-- One step of the per-client loop.  `answer` is what `skvs_serve` returns where it does. -/
def clientNext (cfg : Config) (answer : Served) : ClientPc → Exec Conn ClientPc
  | .head => do
    let s ← reads id
    if s.g_shutdown = false ∧ s.client_closed = false then do
      Exec.modify fun s => { s with line_len := -1 }
      scanLine
      return .receiving
    else return .close
  | .receiving => do
    let s ← reads id
    return if s.Receiving then .recv else .received
  | .recv => do
    let s ← reads id
    Exec.modify fun s => { s with net := s.net.tail }
    match s.net.headD .eof with
    | .eof => do
      closeClient
      return .received
    | .error eintr => return .recvFailed eintr
    | .data c =>
      if s.total_used + c.bytes.length > cfg.BUF_SIZE then do
        closeClient
        return .received
      else do
        appendChunk c.bytes
        scanLine
        return .receiving
  | .recvFailed eintr => do
    let s ← reads id
    if eintr = true ∧ s.g_shutdown = false then return .receiving
    else do
      closeClient
      return .received
  | .received => do
    let s ← reads id
    if s.client_closed = true ∨ s.g_shutdown = true then return .close
    else if s.line_len = 1 ∧ s.total_buf.head? = some newline then do
      closeClient
      return .close
    else return .serve
  | .serve => do
    Exec.modify fun s =>
      { s with served := s.served ++ [s.total_buf.take s.line_len.toNat] }
    return .serving
  | .serving => do
    Exec.modify fun s => { s with response_len := answer.response_len }
    if answer.ret < 0 then do
      closeClient
      return .close
    else return if answer.ret = 0 then .head else .sendTest 0
  | .sendTest sent => do
    let s ← reads id
    return if sent < s.response_len then .send sent else .consume
  | .send sent => do
    let s ← reads id
    Exec.modify fun s => { s with sends := s.sends.tail }
    match s.sends.headD (.sent (s.response_len - sent).toNat) with
    | .error eintr => return .sendFailed sent eintr
    | .sent n =>
      if n = 0 then do
        closeClient
        return .consume
      else return .sendTest (sent + min (n : ℤ) (s.response_len - sent))
  | .sendFailed sent eintr => do
    let s ← reads id
    if eintr = true ∧ s.g_shutdown = false then return .sendTest sent
    else do
      closeClient
      return .consume
  | .consume => do
    consumeLine
    return .head
  | .close => return .close

/-! ### The threads -/

/-- A file descriptor. -/
abbrev Fd := ℕ

/-- What a descriptor stands for. -/
inductive Descriptor where
  | free
  | other
  | listener
  | client
  deriving DecidableEq

/-- Where a worker is in `handle_client`. -/
inductive Place where
  -- there is no thread yet
  | absent
  -- `while (!g_shutdown)`, and the call of `accept` in it
  | loop
  | accepting
  -- `clientfd < 0`, then `if (g_shutdown) break;`
  | refused (eintr : Bool)
  | client (clientfd : Fd) (pc : ClientPc) (c : Conn)
  | returned

/-- What a worker does in a step: it looks at `g_shutdown` and its own variables, or a call returns
(`skvs_serve` has a step for the call and one for the return). -/
inductive Deed where
  | look
  | accept (clientfd : Fd)
  | refuse (eintr : Bool)
  | recv (clientfd : Fd)
  | serve
  | served (answer : Served)
  | send (clientfd : Fd)
  | close (clientfd : Fd)

/-- What a step of the per-client loop does. -/
def ClientPc.deed (clientfd : Fd) (answer : Served) : ClientPc → Deed
  | .recv => .recv clientfd
  | .serve => .serve
  | .serving => .served answer
  | .send _ => .send clientfd
  | .close => .close clientfd
  | _ => .look

/-- One step of a worker that finds `g_shutdown` as it is. -/
inductive WorkerStep (cfg : Config) (g_shutdown : Bool) : Place → Deed → Place → Prop where
  | enter (h : g_shutdown = false) : WorkerStep cfg g_shutdown .loop .look .accepting
  | leave (h : g_shutdown = true) : WorkerStep cfg g_shutdown .loop .look .returned
  | accept (clientfd : Fd) (buf : List Byte) (net : List Recv) (sends : List Send)
      (hbuf : buf.length = cfg.BUF_SIZE) :
      WorkerStep cfg g_shutdown .accepting (.accept clientfd)
        (.client clientfd .head (accepted buf net sends))
  | refuse (eintr : Bool) : WorkerStep cfg g_shutdown .accepting (.refuse eintr) (.refused eintr)
  -- `EINTR` or not, the loop goes on unless the server shuts down
  | retry {eintr : Bool} (h : g_shutdown = false) :
      WorkerStep cfg g_shutdown (.refused eintr) .look .loop
  | stop {eintr : Bool} (h : g_shutdown = true) :
      WorkerStep cfg g_shutdown (.refused eintr) .look .returned
  | client {clientfd : Fd} {pc pc' : ClientPc} {c c' : Conn} (answer : Served) (hpc : pc ≠ .close)
      (h : clientNext cfg answer pc { c with g_shutdown := g_shutdown } = .ok pc' c') :
      WorkerStep cfg g_shutdown (.client clientfd pc c) (pc.deed clientfd answer)
        (.client clientfd pc' c')
  | close {clientfd : Fd} {c : Conn} :
      WorkerStep cfg g_shutdown (.client clientfd .close c) (.close clientfd) .loop

/-- The calls that `main` makes before the first thread is created, in their order. -/
inductive Setup where
  | signal
  | skvs_init
  | socket
  | inet_pton
  | setsockopt
  | bind
  | listen
  deriving DecidableEq

/-- Where `main` is. -/
inductive MainPc where
  | setup (call : Setup)
  -- `for (i = 0; i < num_threads; i++)`: `malloc` and `pthread_create`
  | create (i : ℕ)
  -- `while (!g_shutdown)`, the call of `pause` in it, and the sleep
  | waitTest
  | pause
  | asleep
  | shutdown
  | close
  -- `for (j = 0; j < num_threads; j++) pthread_join(workers[j], NULL);`
  | join (j : ℕ)
  | skvs_destroy
  | returned
  deriving DecidableEq

/-- What follows a call that has succeeded. -/
def Setup.next : Setup → MainPc
  | signal => .setup .skvs_init
  | skvs_init => .setup .socket
  | socket => .setup .inet_pton
  | inet_pton => .setup .setsockopt
  | setsockopt => .setup .bind
  | bind => .setup .listen
  | listen => .create 0

/-- `ctx` -/
inductive Ctx where
  | absent
  | live
  | destroyed
  deriving DecidableEq

/-- The process.  `listenfd` is what `args->listenfd` is a copy of, `sockfd` the variable of `main`;
`exited` when it has called `exit(EXIT_FAILURE)`, or was killed by a signal it does not handle yet. -/
structure World where
  g_shutdown : Bool
  exited : Bool
  sockfd : Option Fd
  listenfd : Fd
  fds : Fd → Descriptor
  ctx : Ctx
  main : MainPc
  workers : ℕ → Place

/-- The process has not ended. -/
def World.Running (W : World) : Prop := W.exited = false ∧ W.main ≠ .returned

/-- What a call needs of the descriptor table. -/
def Deed.Allowed (W : World) : Deed → Prop
  | .accept clientfd => W.fds W.listenfd = .listener ∧ W.fds clientfd = .free
  | _ => True

/-- What a call does to the descriptor table. -/
def Deed.effect (fds : Fd → Descriptor) : Deed → Fd → Descriptor
  | .accept clientfd => update fds clientfd .client
  | .close clientfd => update fds clientfd .free
  | _ => fds

/-- A step as it shows from outside. -/
inductive Event where
  -- `handle_sigint` runs in `main` (`none`) or in a worker
  | sigint (handler : Option ℕ)
  | main (pc : MainPc)
  | worker (i : ℕ) (d : Deed)

/-- The process after a call of the setup that has succeeded; `fd` is what `socket` returns. -/
def World.setUp (W : World) (fd : Fd) (call : Setup) : World :=
  let W := { W with main := call.next }
  match call with
  | .skvs_init => { W with ctx := .live }
  | .socket => { W with sockfd := some fd, listenfd := fd, fds := update W.fds fd .listener }
  | _ => W

/-- The process after SIGINT: `g_shutdown` is set, and `main` wakes up if it sleeps and the handler
has run in it.  Before `signal` the process is killed. -/
def World.interrupt (W : World) (handler : Option ℕ) : World :=
  if W.main = .setup .signal then { W with exited := true }
  else
    { W with g_shutdown := true
             main := if handler = none ∧ W.main = .asleep then .waitTest else W.main }

@[simp] theorem World.setUp_workers (W : World) (fd : Fd) (call : Setup) :
    (W.setUp fd call).workers = W.workers := by
  cases call <;> rfl

@[simp] theorem World.setUp_g_shutdown (W : World) (fd : Fd) (call : Setup) :
    (W.setUp fd call).g_shutdown = W.g_shutdown := by
  cases call <;> rfl

@[simp] theorem World.setUp_exited (W : World) (fd : Fd) (call : Setup) :
    (W.setUp fd call).exited = W.exited := by
  cases call <;> rfl

@[simp] theorem World.setUp_main (W : World) (fd : Fd) (call : Setup) :
    (W.setUp fd call).main = call.next := by
  cases call <;> rfl

@[simp] theorem World.interrupt_workers (W : World) (handler : Option ℕ) :
    (W.interrupt handler).workers = W.workers := by
  unfold World.interrupt
  split <;> rfl

@[simp] theorem World.interrupt_fds (W : World) (handler : Option ℕ) :
    (W.interrupt handler).fds = W.fds := by
  unfold World.interrupt
  split <;> rfl

/-- One step of the process with `num_threads` workers. -/
inductive Step (cfg : Config) (num_threads : ℕ) (W : World) : Event → World → Prop where
  | sigint (handler : Option ℕ)
      (hhandler : ∀ i ∈ handler, W.workers i ≠ .absent ∧ W.workers i ≠ .returned) :
      Step cfg num_threads W (.sigint handler) (W.interrupt handler)
  | worker (i : ℕ) {d : Deed} {p : Place}
      (hstep : WorkerStep cfg W.g_shutdown (W.workers i) d p) (hallowed : d.Allowed W) :
      Step cfg num_threads W (.worker i d)
        { W with fds := d.effect W.fds, workers := update W.workers i p }
  | setup {call : Setup} (fd : Fd) (h : W.main = .setup call) (hfree : W.fds fd = .free) :
      Step cfg num_threads W (.main (.setup call)) (W.setUp fd call)
  | setupFails {call : Setup} (h : W.main = .setup call) :
      Step cfg num_threads W (.main (.setup call)) { W with exited := true }
  | create (i : ℕ) (h : W.main = .create i) (hi : i < num_threads) :
      Step cfg num_threads W (.main (.create i))
        { W with main := .create (i + 1), workers := update W.workers i .loop }
  | createFails {i : ℕ} (h : W.main = .create i) (hi : i < num_threads) :
      Step cfg num_threads W (.main (.create i)) { W with exited := true }
  | created {i : ℕ} (h : W.main = .create i) (hi : num_threads ≤ i) :
      Step cfg num_threads W (.main (.create i)) { W with main := .waitTest }
  | waitTest (h : W.main = .waitTest) :
      Step cfg num_threads W (.main .waitTest)
        { W with main := if W.g_shutdown = false then .pause else .shutdown }
  | pause (h : W.main = .pause) :
      Step cfg num_threads W (.main .pause) { W with main := .asleep }
  -- the descriptor stays open; `accept` may still return what was pending
  | shutdown (h : W.main = .shutdown) :
      Step cfg num_threads W (.main .shutdown) { W with main := .close }
  | close (fd : Fd) (h : W.main = .close) (hfd : W.sockfd = some fd) :
      Step cfg num_threads W (.main .close)
        { W with main := .join 0, sockfd := none, fds := update W.fds fd .free }
  | join (j : ℕ) (h : W.main = .join j) (hj : j < num_threads) (hdone : W.workers j = .returned) :
      Step cfg num_threads W (.main (.join j)) { W with main := .join (j + 1) }
  | joined {j : ℕ} (h : W.main = .join j) (hj : num_threads ≤ j) :
      Step cfg num_threads W (.main (.join j)) { W with main := .skvs_destroy }
  | destroy (h : W.main = .skvs_destroy) :
      Step cfg num_threads W (.main .skvs_destroy) { W with main := .returned, ctx := .destroyed }

/-- The server, started with some descriptors that are no sockets of its own. -/
def serverSys (cfg : Config) (num_threads : ℕ) : Sys World Event where
  init W := W.g_shutdown = false ∧ W.exited = false ∧ W.sockfd = none ∧ W.ctx = .absent ∧
    W.main = .setup .signal ∧ (∀ i, W.workers i = .absent) ∧
    ∀ fd, W.fds fd = .free ∨ W.fds fd = .other
  step W e W' := W.Running ∧ Step cfg num_threads W e W'

end SystemProgramming.Server
