import SystemProgramming.Server.Buffer
import SystemProgramming.Server.Lifetime

/-!
# Every worker stays inside its buffer

`g_shutdown` may change between any two tests of it.  The per-client loop leaves its receive loop on
one test and decides on the next one whether it has a line; since `g_shutdown` is never reset, it
calls `skvs_serve` with a complete line only, and no access of the loop falls outside `total_buf`.

* `wp_clientNext`: one step of a worker at any place, from the lemmas about the places.
* `clients_of_reach`: the invariant of every client in every reachable state.
* `worker_in_bounds`: the next step of a worker is in bounds, and only complete lines are served.
-/

namespace SystemProgramming.Server

open Exec Function Lines

variable {cfg : Config} {num_threads : ℕ} {g : Bool} {W W' : World} {e : Event} {pc pc' : ClientPc}
  {c c' : Conn} {buf : List Byte} {tr : List Event}

/-- What a worker at `pc` knows about the line; `buf` is `total_buf[0..total_used)`. -/
def ClientPc.Knows (buf : List Byte) (c : Conn) : ClientPc → Prop
  | .head => True
  | .receiving => c.line_len = lineLen buf
  | .recv => c.line_len = -1 ∧ newline ∉ buf
  | .recvFailed _ => c.line_len = -1 ∧ newline ∉ buf
  -- the receive loop was left with a line, or on a test that will turn out the same again
  | .received => c.line_len = lineLen buf ∧
      (newline ∈ buf ∨ c.client_closed = true ∨ c.g_shutdown = true)
  | .close => True
  | _ => c.line_len = lineLen buf ∧ newline ∈ buf

/-- What no step spoils: the worker has not seen a shutdown that is not there, and has only passed
complete lines on. -/
structure Sound (g : Bool) (c : Conn) : Prop where
  seen : c.g_shutdown = true → g = true
  lines : ∀ l ∈ c.served, IsLine l

/-- **The invariant** of one client. -/
def ClientInv (cfg : Config) (g : Bool) (pc : ClientPc) (c : Conn) : Prop :=
  Sound g c ∧ ∃ buf, Buffered cfg buf c ∧ pc.Knows buf c

/-- The fields that the invariant reads, but for those that the place of the worker speaks of. -/
structure Unspoilt (c c' : Conn) : Prop where
  total_buf : c'.total_buf = c.total_buf
  total_used : c'.total_used = c.total_used
  g_shutdown : c'.g_shutdown = c.g_shutdown
  served : c'.served = c.served

theorem ClientInv.next (hb : Buffered cfg buf c) (hs : Sound g c) (hk : pc.Knows buf c')
    (hsame : Unspoilt c c') : ClientInv cfg g pc c' := by
  refine ⟨⟨?_, ?_⟩, buf, ⟨?_, ?_, ?_⟩, hk⟩
  · rw [hsame.g_shutdown]
    exact hs.seen
  · rw [hsame.served]
    exact hs.lines
  · rw [hsame.total_buf]
    exact hb.size
  · rw [hsame.total_used]
    exact hb.used
  · rw [hsame.total_buf]
    exact hb.buffer

/-- `client_closed = 1; break;` -/
theorem wp_closeClient_then {Q : ClientPc → Conn → Prop} (pc : ClientPc) :
    wp (closeClient >>= fun _ => pure pc) Q c ↔ Q pc { c with client_closed := true } := by
  rw [wp_bind, closeClient, wp_modify, wp_pure]

/-- Where a step of the per-client loop leads, and on which conditions: `c` before, `c'` after. -/
inductive Goes (answer : Served) (c c' : Conn) : ClientPc → ClientPc → Prop where
  | enter (hrun : c.g_shutdown = false) : Goes answer c c' .head .receiving
  | leave : Goes answer c c' .head .close
  | receive (hrec : c.Receiving) : Goes answer c c' .receiving .recv
  | received : Goes answer c c' .receiving .received
  | arrived : Goes answer c c' .recv .receiving
  | closed : Goes answer c c' .recv .received
  | failed (eintr : Bool) : Goes answer c c' .recv (.recvFailed eintr)
  | retry {eintr : Bool} (hrun : c.g_shutdown = false) :
      Goes answer c c' (.recvFailed eintr) .receiving
  | giveUp {eintr : Bool} : Goes answer c c' (.recvFailed eintr) .received
  | quit : Goes answer c c' .received .close
  | pass (hrun : c.g_shutdown = false) : Goes answer c c' .received .serve
  | call : Goes answer c c' .serve .serving
  | refused : Goes answer c c' .serving .close
  | again : Goes answer c c' .serving .head
  | answered (hlen : c'.response_len = answer.response_len) : Goes answer c c' .serving (.sendTest 0)
  | send {sent : ℤ} (hlen : c'.response_len = c.response_len) (hlt : sent < c.response_len) :
      Goes answer c c' (.sendTest sent) (.send sent)
  | sent {sent : ℤ} : Goes answer c c' (.sendTest sent) .consume
  | took {sent : ℤ} (n : ℕ) (hlen : c'.response_len = c.response_len) (hn : n ≠ 0) :
      Goes answer c c' (.send sent) (.sendTest (sent + min (n : ℤ) (c.response_len - sent)))
  | hungUp {sent : ℤ} : Goes answer c c' (.send sent) .consume
  | sendFailed {sent : ℤ} (eintr : Bool) (hlen : c'.response_len = c.response_len) :
      Goes answer c c' (.send sent) (.sendFailed sent eintr)
  | sendRetry {sent : ℤ} {eintr : Bool} (hlen : c'.response_len = c.response_len)
      (hrun : c.g_shutdown = false) :
      Goes answer c c' (.sendFailed sent eintr) (.sendTest sent)
  | sendGiveUp {sent : ℤ} {eintr : Bool} : Goes answer c c' (.sendFailed sent eintr) .consume
  | consumed : Goes answer c c' .consume .head

/-- The first line of a buffer with a newline. -/
theorem exists_line (h : newline ∈ buf) :
    ∃ xs ys, newline ∉ xs ∧ buf = (xs ++ [newline]) ++ ys ∧ lineLen buf = (xs ++ [newline]).length := by
  obtain ⟨xs, ys, hxs, rfl⟩ := exists_first h
  refine ⟨xs, ys, hxs, ?_, ?_⟩
  · rw [List.append_assoc]
    rfl
  · rw [lineLen_append_cons hxs, List.length_append]
    rfl

/-! ### One lemma for each place of the worker -/

/-- Where a step leads, and that the invariant holds there. -/
def Onward (cfg : Config) (answer : Served) (g : Bool) (c : Conn) (pc pc' : ClientPc) (c' : Conn) :
    Prop :=
  Goes answer c c' pc pc' ∧ ClientInv cfg g pc' c'

/-- `while (!g_shutdown && !client_closed)` -/
theorem onward_head (hb : Buffered cfg buf c) (hs : Sound g c) (answer : Served) :
    wp (clientNext cfg answer .head) (Onward cfg answer g c .head) c := by
  unfold clientNext
  rw [wp_bind, wp_reads, wp_ite]
  constructor
  · intro hgo
    rw [wp_bind, wp_modify, wp_bind]
    have hb₀ : Buffered cfg buf { c with line_len := -1 } := ⟨hb.size, hb.used, hb.buffer⟩
    apply wp_scanLine hb₀ rfl
    rw [wp_pure]
    exact ⟨.enter hgo.1, .next hb hs rfl ⟨rfl, rfl, rfl, rfl⟩⟩
  · intro _
    rw [wp_pure]
    exact ⟨.leave, .next hb hs trivial ⟨rfl, rfl, rfl, rfl⟩⟩

/-- The test of the receive loop. -/
theorem onward_receiving (hb : Buffered cfg buf c) (hs : Sound g c)
    (hk : ClientPc.Knows buf c .receiving) (answer : Served) :
    wp (clientNext cfg answer .receiving) (Onward cfg answer g c .receiving) c := by
  unfold clientNext
  rw [wp_bind, wp_reads, wp_pure]
  split
  · rename_i hrec
    have hneg : lineLen buf < 0 := by
      rw [← show c.line_len = lineLen buf from hk]
      exact hrec.1
    have hmem := lineLen_neg_iff.mp hneg
    have hlen : c.line_len = -1 := hk.trans (lineLen_of_not_mem hmem)
    exact ⟨.receive hrec, .next hb hs ⟨hlen, hmem⟩ ⟨rfl, rfl, rfl, rfl⟩⟩
  · rename_i hrec
    refine ⟨.received, .next hb hs ⟨hk, ?_⟩ ⟨rfl, rfl, rfl, rfl⟩⟩
    by_cases hmem : newline ∈ buf
    · exact Or.inl hmem
    · have hneg : c.line_len < 0 := by
        rw [show c.line_len = lineLen buf from hk]
        exact lineLen_neg_iff.mpr hmem
      right
      by_contra hno
      rw [not_or, Bool.not_eq_true, Bool.not_eq_true] at hno
      exact hrec ⟨hneg, hno.2, hno.1⟩

/-- `recv` returns: what it has read is appended and searched. -/
theorem onward_recv (hb : Buffered cfg buf c) (hs : Sound g c)
    (hk : ClientPc.Knows buf c .recv) (answer : Served) :
    wp (clientNext cfg answer .recv) (Onward cfg answer g c .recv) c := by
  obtain ⟨hlen, hmem⟩ := hk
  have hlen' : c.line_len = lineLen buf := hlen.trans (lineLen_of_not_mem hmem).symm
  have hb' : Buffered cfg buf { c with net := c.net.tail } := ⟨hb.size, hb.used, hb.buffer⟩
  unfold clientNext
  rw [wp_bind, wp_reads, wp_bind, wp_modify]
  cases (id c).net.headD .eof with
  | eof =>
    show wp (closeClient >>= _) _ _
    rw [wp_closeClient_then]
    exact ⟨.closed, .next hb hs ⟨hlen', Or.inr (Or.inl rfl)⟩ ⟨rfl, rfl, rfl, rfl⟩⟩
  | error eintr =>
    apply (wp_pure _).mpr
    exact ⟨.failed eintr, .next hb hs ⟨hlen, hmem⟩ ⟨rfl, rfl, rfl, rfl⟩⟩
  | data ch =>
    show wp (if c.total_used + ch.bytes.length > cfg.BUF_SIZE then _ else _) _ _
    rw [wp_ite]
    constructor
    · intro _
      rw [wp_closeClient_then]
      exact ⟨.closed, .next hb hs ⟨hlen', Or.inr (Or.inl rfl)⟩ ⟨rfl, rfl, rfl, rfl⟩⟩
    · intro hfit
      rw [hb.used] at hfit
      rw [wp_bind]
      apply wp_appendChunk hb' (by omega)
      intro total_buf used hb''
      rw [wp_bind]
      apply wp_scanLine hb'' hlen
      rw [wp_pure]
      have hread : Buffered cfg (buf ++ ch.bytes) { c with
          total_buf := total_buf, total_used := used, net := c.net.tail
          line_len := lineLen (buf ++ ch.bytes) } := ⟨hb''.size, hb''.used, hb''.buffer⟩
      exact ⟨.arrived, ⟨hs.seen, hs.lines⟩, buf ++ ch.bytes, hread, rfl⟩

/-- `recv` has failed. -/
theorem onward_recvFailed (hb : Buffered cfg buf c) (hs : Sound g c) (eintr : Bool)
    (hk : ClientPc.Knows buf c (.recvFailed eintr)) (answer : Served) :
    wp (clientNext cfg answer (.recvFailed eintr)) (Onward cfg answer g c (.recvFailed eintr)) c := by
  obtain ⟨hlen, hmem⟩ := hk
  have hlen' : c.line_len = lineLen buf := hlen.trans (lineLen_of_not_mem hmem).symm
  unfold clientNext
  rw [wp_bind, wp_reads, wp_ite]
  constructor
  · intro hretry
    rw [wp_pure]
    exact ⟨.retry hretry.2, .next hb hs hlen' ⟨rfl, rfl, rfl, rfl⟩⟩
  · intro _
    rw [wp_closeClient_then]
    exact ⟨.giveUp, .next hb hs ⟨hlen', Or.inr (Or.inl rfl)⟩ ⟨rfl, rfl, rfl, rfl⟩⟩

/-- What has been received is a line, unless the loop is left. -/
theorem onward_received (hb : Buffered cfg buf c) (hs : Sound g c)
    (hk : ClientPc.Knows buf c .received) (answer : Served) :
    wp (clientNext cfg answer .received) (Onward cfg answer g c .received) c := by
  obtain ⟨hlen, hwhy⟩ := hk
  unfold clientNext
  rw [wp_bind, wp_reads, wp_ite]
  constructor
  · intro _
    rw [wp_pure]
    exact ⟨.quit, .next hb hs trivial ⟨rfl, rfl, rfl, rfl⟩⟩
  · intro hgo
    rw [wp_ite]
    constructor
    · intro _
      rw [wp_closeClient_then]
      exact ⟨.quit, .next hb hs trivial ⟨rfl, rfl, rfl, rfl⟩⟩
    · intro _
      rw [wp_pure]
      have hrun : c.g_shutdown = false := (Bool.not_eq_true _).mp fun hg => hgo (Or.inr hg)
      exact ⟨.pass hrun, .next hb hs ⟨hlen, hwhy.resolve_right hgo⟩ ⟨rfl, rfl, rfl, rfl⟩⟩

/-- `skvs_serve` is called with a complete line. -/
theorem onward_serve (hb : Buffered cfg buf c) (hs : Sound g c)
    (hk : ClientPc.Knows buf c .serve) (answer : Served) :
    wp (clientNext cfg answer .serve) (Onward cfg answer g c .serve) c := by
  obtain ⟨hlen, hmem⟩ := hk
  unfold clientNext
  rw [wp_bind, wp_modify, wp_pure]
  refine ⟨.call, ⟨hs.seen, ?_⟩, buf, ⟨hb.size, hb.used, hb.buffer⟩, hlen, hmem⟩
  intro l hl
  obtain hl | hl := List.mem_append.mp hl
  · exact hs.lines l hl
  · obtain ⟨xs, ys, hxs, rfl, hline⟩ := exists_line hmem
    rw [List.mem_singleton] at hl
    rw [hl, hb.firstLine (hlen.trans hline)]
    exact ⟨xs, hxs, rfl⟩

/-- `skvs_serve` returns. -/
theorem onward_serving (hb : Buffered cfg buf c) (hs : Sound g c)
    (hk : ClientPc.Knows buf c .serving) (answer : Served) :
    wp (clientNext cfg answer .serving) (Onward cfg answer g c .serving) c := by
  unfold clientNext
  rw [wp_bind, wp_modify, wp_ite]
  constructor
  · intro _
    rw [wp_closeClient_then]
    exact ⟨.refused, .next hb hs trivial ⟨rfl, rfl, rfl, rfl⟩⟩
  · intro _
    rw [wp_pure]
    split
    · exact ⟨.again, .next hb hs trivial ⟨rfl, rfl, rfl, rfl⟩⟩
    · exact ⟨.answered rfl, .next hb hs hk ⟨rfl, rfl, rfl, rfl⟩⟩

/-- The test of the send loop. -/
theorem onward_sendTest (hb : Buffered cfg buf c) (hs : Sound g c) (sent : ℤ)
    (hk : ClientPc.Knows buf c (.sendTest sent)) (answer : Served) :
    wp (clientNext cfg answer (.sendTest sent)) (Onward cfg answer g c (.sendTest sent)) c := by
  unfold clientNext
  rw [wp_bind, wp_reads, wp_pure]
  split
  · rename_i hlt
    exact ⟨.send rfl hlt, .next hb hs hk ⟨rfl, rfl, rfl, rfl⟩⟩
  · exact ⟨.sent, .next hb hs hk ⟨rfl, rfl, rfl, rfl⟩⟩

/-- `send` returns. -/
theorem onward_send (hb : Buffered cfg buf c) (hs : Sound g c) (sent : ℤ)
    (hk : ClientPc.Knows buf c (.send sent)) (answer : Served) :
    wp (clientNext cfg answer (.send sent)) (Onward cfg answer g c (.send sent)) c := by
  unfold clientNext
  rw [wp_bind, wp_reads, wp_bind, wp_modify]
  cases (id c).sends.headD (.sent ((id c).response_len - sent).toNat) with
  | error eintr =>
    apply (wp_pure _).mpr
    exact ⟨.sendFailed eintr rfl, .next hb hs hk ⟨rfl, rfl, rfl, rfl⟩⟩
  | sent n =>
    show wp (if n = 0 then _ else _) _ _
    rw [wp_ite]
    constructor
    · intro _
      rw [wp_closeClient_then]
      exact ⟨.hungUp, .next hb hs hk ⟨rfl, rfl, rfl, rfl⟩⟩
    · intro hn
      rw [wp_pure]
      exact ⟨.took n rfl hn, .next hb hs hk ⟨rfl, rfl, rfl, rfl⟩⟩

/-- `send` has failed. -/
theorem onward_sendFailed (hb : Buffered cfg buf c) (hs : Sound g c) (sent : ℤ) (eintr : Bool)
    (hk : ClientPc.Knows buf c (.sendFailed sent eintr)) (answer : Served) :
    wp (clientNext cfg answer (.sendFailed sent eintr)) (Onward cfg answer g c (.sendFailed sent eintr)) c := by
  unfold clientNext
  rw [wp_bind, wp_reads, wp_ite]
  constructor
  · intro hretry
    rw [wp_pure]
    exact ⟨.sendRetry rfl hretry.2, .next hb hs hk ⟨rfl, rfl, rfl, rfl⟩⟩
  · intro _
    rw [wp_closeClient_then]
    exact ⟨.sendGiveUp, .next hb hs hk ⟨rfl, rfl, rfl, rfl⟩⟩

/-- The line is removed from the buffer. -/
theorem onward_consume (hb : Buffered cfg buf c) (hs : Sound g c)
    (hk : ClientPc.Knows buf c .consume) (answer : Served) :
    wp (clientNext cfg answer .consume) (Onward cfg answer g c .consume) c := by
  obtain ⟨hlen, hmem⟩ := hk
  obtain ⟨xs, ys, hxs, rfl, hline⟩ := exists_line hmem
  unfold clientNext
  rw [wp_bind]
  apply wp_consumeLine hb (hlen.trans hline)
  intro total_buf used hb'
  rw [wp_pure]
  exact ⟨.consumed, ⟨hs.seen, hs.lines⟩, ys, hb', trivial⟩

/-- **One step of a client** succeeds, leads where it may and keeps the invariant. -/
theorem wp_clientNext (answer : Served) (hpc : pc ≠ .close) (h : ClientInv cfg g pc c) :
    wp (clientNext cfg answer pc)
      (fun pc' c' => Goes answer c c' pc pc' ∧ ClientInv cfg g pc' c') c := by
  obtain ⟨hs, buf, hb, hk⟩ := h
  cases pc with
  | head => exact onward_head hb hs answer
  | receiving => exact onward_receiving hb hs hk answer
  | recv => exact onward_recv hb hs hk answer
  | recvFailed eintr => exact onward_recvFailed hb hs eintr hk answer
  | received => exact onward_received hb hs hk answer
  | serve => exact onward_serve hb hs hk answer
  | serving => exact onward_serving hb hs hk answer
  | sendTest sent => exact onward_sendTest hb hs sent hk answer
  | send sent => exact onward_send hb hs sent hk answer
  | sendFailed sent eintr => exact onward_sendFailed hb hs sent eintr hk answer
  | consume => exact onward_consume hb hs hk answer
  | close => exact absurd rfl hpc

/-! ### All workers -/

/-- Every client of every worker. -/
def World.Clients (cfg : Config) (W : World) : Prop :=
  ∀ i clientfd pc c, W.workers i = .client clientfd pc c → ClientInv cfg W.g_shutdown pc c

/-- A look at `g_shutdown` brings the worker up to date. -/
theorem ClientInv.refresh (h : ClientInv cfg g pc c) :
    ClientInv cfg g pc { c with g_shutdown := g } := by
  obtain ⟨hs, buf, hb, hk⟩ := h
  refine ⟨⟨fun hg => hg, hs.lines⟩, buf, ⟨hb.size, hb.used, hb.buffer⟩, ?_⟩
  cases pc with
  | received => exact ⟨hk.1, hk.2.imp_right (Or.imp_right hs.seen)⟩
  | _ => exact hk

theorem clientInv_accepted {total_buf : List Byte} {net : List Recv} {sends : List Send}
    (hbuf : total_buf.length = cfg.BUF_SIZE) :
    ClientInv cfg g .head (accepted total_buf net sends) := by
  refine ⟨⟨fun h => ?_, fun l hl => ?_⟩, [], ⟨hbuf, rfl, rfl⟩, trivial⟩
  · cases h
  · cases hl

theorem ClientInv.shutdown (h : ClientInv cfg g pc c) : ClientInv cfg true pc c :=
  ⟨⟨fun _ => rfl, h.1.lines⟩, h.2⟩

theorem clients_step (h : W.Clients cfg) (hs : Step cfg num_threads W e W') : W'.Clients cfg := by
  cases hs with
  | sigint _ _ =>
    unfold World.interrupt
    split
    · exact h
    · exact fun i fd pc c hi => (h i fd pc c hi).shutdown
  | worker i hstep hallowed =>
    intro j fd pc c hj
    obtain ⟨-, rfl⟩ | ⟨-, hj⟩ := update_cases hj
    · generalize hi : W.workers i = p₀ at hstep
      cases hstep with
      | accept _ buf net sends hbuf => exact clientInv_accepted hbuf
      | client answer hpc hnext =>
        have hwp := wp_clientNext answer hpc (h i _ _ _ hi).refresh
        rw [wp_iff_of_ok hnext] at hwp
        exact hwp.2
    · exact h j fd pc c hj
  | create _ _ _ =>
    intro j fd pc c hj
    obtain ⟨-, hp⟩ | ⟨-, hj⟩ := update_cases hj
    · cases hp
    · exact h j fd pc c hj
  | setup fd hmain hfree =>
    unfold World.Clients
    rw [World.setUp_workers, World.setUp_g_shutdown]
    exact h
  | _ => exact h

theorem clients_of_reach (h : Reach (serverSys cfg num_threads) tr W) : W.Clients cfg := by
  apply h.state_invariant
  · rintro W ⟨-, -, -, -, -, habsent, -⟩ i fd pc c hi
    rw [habsent i] at hi
    cases hi
  · exact fun W e W' hW hs => clients_step hW hs.2

/-- **The loop stays inside `total_buf`, and only complete lines are served**: wherever a worker is in its
per-client loop and whatever `skvs_serve` answers, its next step makes no `memcpy` and no `memmove` outside
`total_buf`; and all it has passed to `skvs_serve` are complete lines.  What `skvs_serve` itself writes is
not part of the model. -/
theorem worker_in_bounds (h : Reach (serverSys cfg num_threads) tr W) {i : ℕ} {clientfd : Fd}
    (hi : W.workers i = .client clientfd pc c) (answer : Served) :
    ∃ pc' c', clientNext cfg answer pc { c with g_shutdown := W.g_shutdown } = .ok pc' c' ∧
      ∀ l ∈ c'.served, IsLine l := by
  have hinv := (clients_of_reach h i clientfd pc c hi).refresh
  by_cases hpc : pc = .close
  · subst hpc
    exact ⟨.close, _, rfl, hinv.1.lines⟩
  · obtain ⟨pc', c', hok, -, hinv'⟩ := wp_clientNext answer hpc hinv
    exact ⟨pc', c', hok, hinv'.1.lines⟩

/-- The theorem at a worker that has served a line and waits for the rest of the next one, while `main` waits
for the worker. -/
theorem worker_in_bounds_sample :
    Reach (serverSys echoConfig 1) (sampleWork ++ .sigint none :: sampleClosing) sampleBlocked ∧
      sampleBlocked.workers 0 = .client 4 .recv sampleWaiting ∧
      sampleWaiting.served = [[97, newline]] ∧
      ∃ pc' c', clientNext echoConfig ⟨1, 1⟩ .recv
          { sampleWaiting with g_shutdown := sampleBlocked.g_shutdown } = .ok pc' c' ∧
        ∀ l ∈ c'.served, IsLine l := by
  have hclient : sampleBlocked.workers 0 = .client 4 .recv sampleWaiting := rfl
  exact ⟨reach_sampleClosing, hclient, rfl, worker_in_bounds reach_sampleClosing hclient ⟨1, 1⟩⟩

end SystemProgramming.Server
