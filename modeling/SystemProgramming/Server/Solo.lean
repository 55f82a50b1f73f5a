import SystemProgramming.Server.Framing
import SystemProgramming.Server.Workers
import SystemProgramming.Lib.Frames
import Mathlib.Logic.Relation

/-!
# A worker that is left alone runs the per-client loop

The steps of a worker (`clientNext`), taken one after the other while `g_shutdown` does not change and
nobody else answers for the store, are a run of `clientLoop`: they lead from the head of the loop to
`close` with the same buffer, the same lines served and the same rest of the network.

* `solo_clientIteration`: an iteration, taken step by step.
* `worker_refines_clientLoop`: the steps of a worker that is alone lead to where the loop ends.
-/

namespace SystemProgramming.Server

open Exec Relation

variable {cfg : Config} {c c' : Conn}

/-- One step of a worker alone, `skvs_serve` answering as `cfg` says. -/
def Solo (cfg : Config) (x y : ClientPc × Conn) : Prop :=
  x.1 ≠ .close ∧ clientNext cfg (cfg.skvs_serve x.2.served) x.1 x.2 = .ok y.1 y.2

/-- Any number of steps. -/
abbrev SoloRun (cfg : Config) : ClientPc × Conn → ClientPc × Conn → Prop := ReflTransGen (Solo cfg)

theorem SoloRun.head {pc pc₁ pc' : ClientPc} {c₁ : Conn} (hpc : pc ≠ .close)
    (h : clientNext cfg (cfg.skvs_serve c.served) pc c = .ok pc₁ c₁)
    (hrest : SoloRun cfg (pc₁, c₁) (pc', c')) : SoloRun cfg (pc, c) (pc', c') :=
  ReflTransGen.head (b := (pc₁, c₁)) ⟨hpc, h⟩ hrest

theorem SoloRun.single {pc pc' : ClientPc} (hpc : pc ≠ .close)
    (h : clientNext cfg (cfg.skvs_serve c.served) pc c = .ok pc' c') :
    SoloRun cfg (pc, c) (pc', c') := .head hpc h .refl

/-! ### The receive loop -/

theorem receiving_next (cfg : Config) (answer : Served) (c : Conn) :
    clientNext cfg answer .receiving c = .ok (if c.Receiving then .recv else .received) c := rfl

/-- `recv` returns. -/
theorem recv_next (cfg : Config) (answer : Served) (c : Conn) :
    clientNext cfg answer .recv c
      = (match c.net.headD .eof with
        | .eof => closeClient >>= fun _ => pure .received
        | .error eintr => pure (.recvFailed eintr)
        | .data ch =>
          if c.total_used + ch.bytes.length > cfg.BUF_SIZE then closeClient >>= fun _ => pure .received
          else appendChunk ch.bytes >>= fun _ => scanLine >>= fun _ => pure .receiving : Exec Conn ClientPc)
        { c with net := c.net.tail } := rfl

theorem appendChunk_net {bytes : List Byte} (h : appendChunk bytes c = .ok () c') :
    c'.net = c.net := by
  unfold appendChunk at h
  split at h
  · cases h
    rfl
  · cases h

theorem scanLine_net (h : scanLine c = .ok () c') : c'.net = c.net := by
  cases h
  dsimp only
  split <;> rfl

/-- One turn of the receive loop. -/
theorem receiveLoop_cons (cfg : Config) (r : Recv) (net : List Recv) {c : Conn} (hrec : c.Receiving) :
    receiveLoop cfg (r :: net) c
      = (match r with
        | .eof => closeClient
        | .error eintr =>
          if eintr = true ∧ c.g_shutdown = false then receiveLoop cfg net else closeClient
        | .data ch =>
          if c.total_used + ch.bytes.length > cfg.BUF_SIZE then closeClient
          else appendChunk ch.bytes >>= fun _ => scanLine >>= fun _ => receiveLoop cfg net)
        { c with net := net } := by
  show (if c.Receiving then _ else _ : Exec Conn Unit) c = _
  rw [if_pos hrec]
  rfl

theorem receiveLoop_of_not (cfg : Config) (net : List Recv) {c : Conn} (hrec : ¬ c.Receiving) :
    receiveLoop cfg net c = .ok () c := by
  cases net with
  | nil =>
    show (if c.Receiving then _ else _ : Exec Conn Unit) c = _
    rw [if_neg hrec]
    rfl
  | cons r net =>
    show (if c.Receiving then _ else _ : Exec Conn Unit) c = _
    rw [if_neg hrec]
    rfl

theorem solo_stop {net : List Recv} (hrec : ¬ c.Receiving) (h : receiveLoop cfg net c = .ok () c') :
    SoloRun cfg (.receiving, c) (.received, c') := by
  rw [receiveLoop_of_not cfg net hrec] at h
  cases h
  apply SoloRun.single ClientPc.noConfusion
  rw [receiving_next, if_neg hrec]

theorem SoloRun.enter (hrec : c.Receiving) (hrun : SoloRun cfg (.recv, c) (.received, c')) :
    SoloRun cfg (.receiving, c) (.received, c') := by
  apply SoloRun.head ClientPc.noConfusion _ hrun
  rw [receiving_next, if_pos hrec]

/-- The loop ends as it stands, or `recv` is called. -/
theorem solo_receiveLoop {net : List Recv} (hnet : c.net = net)
    (h : receiveLoop cfg net c = .ok () c') : SoloRun cfg (.receiving, c) (.received, c') := by
  induction net generalizing c with
  | nil =>
    by_cases hrec : c.Receiving
    · apply SoloRun.enter hrec
      apply SoloRun.single ClientPc.noConfusion
      change (if c.Receiving then closeClient else pure ()) c = .ok () c' at h
      rw [if_pos hrec] at h
      rw [recv_next, hnet]
      have htail : { c with net := ([] : List Recv).tail } = c := by
        rw [List.tail_nil, ← hnet]
      show (closeClient >>= _) { c with net := ([] : List Recv).tail } = _
      rw [htail, bind_of_ok h]
      rfl
    · exact solo_stop hrec h
  | cons r net ih =>
    by_cases hrec : c.Receiving
    · apply SoloRun.enter hrec
      rw [receiveLoop_cons cfg r net hrec] at h
      -- a turn that ends the loop is one step
      have hclose : closeClient { c with net := net } = .ok () c' →
          clientNext cfg (cfg.skvs_serve c.served) .recv c
            = (closeClient >>= fun _ => pure .received) { c with net := net } →
          SoloRun cfg (.recv, c) (.received, c') := by
        intro hclosed heq
        apply SoloRun.single ClientPc.noConfusion
        rw [heq, bind_of_ok hclosed]
        rfl
      have hnext := recv_next cfg (cfg.skvs_serve c.served) c
      rw [hnet] at hnext
      cases r with
      | eof => exact hclose h hnext
      | error eintr =>
        apply SoloRun.head ClientPc.noConfusion hnext
        by_cases hretry : eintr = true ∧ c.g_shutdown = false
        · change (if eintr = true ∧ c.g_shutdown = false then _ else _ : Exec Conn Unit) _ = _ at h
          rw [if_pos hretry] at h
          apply SoloRun.head ClientPc.noConfusion _ (ih rfl h)
          show (if eintr = true ∧ c.g_shutdown = false then _ else _ : Exec Conn ClientPc) _ = _
          rw [if_pos hretry]
          rfl
        · change (if eintr = true ∧ c.g_shutdown = false then _ else _ : Exec Conn Unit) _ = _ at h
          rw [if_neg hretry] at h
          apply SoloRun.single ClientPc.noConfusion
          show (if eintr = true ∧ c.g_shutdown = false then _ else _ : Exec Conn ClientPc) _ = _
          rw [if_neg hretry]
          exact bind_of_ok h
      | data ch =>
        change (if c.total_used + ch.bytes.length > cfg.BUF_SIZE then _ else _ : Exec Conn Unit) _
          = _ at h
        change _ = (if c.total_used + ch.bytes.length > cfg.BUF_SIZE then _ else _ :
          Exec Conn ClientPc) { c with net := net } at hnext
        by_cases hfull : c.total_used + ch.bytes.length > cfg.BUF_SIZE
        · rw [if_pos hfull] at h hnext
          exact hclose h hnext
        · rw [if_neg hfull] at h hnext
          obtain ⟨⟨⟩, c₁, h₁, h⟩ := exists_of_bind_ok h
          obtain ⟨⟨⟩, c₂, h₂, h⟩ := exists_of_bind_ok h
          rw [bind_of_ok h₁, bind_of_ok h₂] at hnext
          apply SoloRun.head ClientPc.noConfusion hnext
          exact ih ((scanLine_net h₂).trans (appendChunk_net h₁)) h
    · exact solo_stop hrec h

/-! ### The send loop -/

theorem sendTest_next (cfg : Config) (answer : Served) (sent : ℤ) (c : Conn) :
    clientNext cfg answer (.sendTest sent) c
      = .ok (if sent < c.response_len then .send sent else .consume) c := rfl

/-- `send` returns. -/
theorem send_next (cfg : Config) (answer : Served) (sent : ℤ) (c : Conn) :
    clientNext cfg answer (.send sent) c
      = (match c.sends.headD (.sent (c.response_len - sent).toNat) with
        | .error eintr => pure (.sendFailed sent eintr)
        | .sent n =>
          if n = 0 then closeClient >>= fun _ => pure .consume
          else pure (.sendTest (sent + min (n : ℤ) (c.response_len - sent))) : Exec Conn ClientPc)
        { c with sends := c.sends.tail } := rfl

/-- One turn of the send loop. -/
theorem sendLoop_cons (r : Send) (sends : List Send) (sent : ℤ) {c : Conn}
    (hlt : sent < c.response_len) :
    sendLoop (r :: sends) sent c
      = (match r with
        | .error eintr =>
          if eintr = true ∧ c.g_shutdown = false then sendLoop sends sent else closeClient
        | .sent n =>
          if n = 0 then closeClient
          else sendLoop sends (sent + min (n : ℤ) (c.response_len - sent)))
        { c with sends := sends } := by
  show (if sent < c.response_len then _ else _ : Exec Conn Unit) c = _
  rw [if_pos hlt]
  rfl

theorem solo_sendLoop {sends : List Send} {sent : ℤ} (hsends : c.sends = sends)
    (h : sendLoop sends sent c = .ok () c') : SoloRun cfg (.sendTest sent, c) (.consume, c') := by
  have hstop : ∀ {c : Conn} {sent : ℤ}, ¬ sent < c.response_len →
      SoloRun cfg (.sendTest sent, c) (.consume, c) := by
    intro c sent hlt
    apply SoloRun.single ClientPc.noConfusion
    rw [sendTest_next, if_neg hlt]
  have henter : ∀ {c : Conn} {sent : ℤ}, sent < c.response_len →
      SoloRun cfg (.send sent, c) (.consume, c') → SoloRun cfg (.sendTest sent, c) (.consume, c') := by
    intro c sent hlt hrun
    apply SoloRun.head ClientPc.noConfusion _ hrun
    rw [sendTest_next, if_pos hlt]
  induction sends generalizing c sent with
  | nil =>
    cases h
    by_cases hlt : sent < c'.response_len
    · -- `send` takes all that is left
      apply henter hlt
      have hnext := send_next cfg (cfg.skvs_serve c'.served) sent c'
      have hpos : ((c'.response_len - sent).toNat : ℤ) = c'.response_len - sent := by omega
      have hsent : sent + min (c'.response_len - sent) (c'.response_len - sent) = c'.response_len := by
        omega
      have htail : { c' with sends := ([] : List Send).tail } = c' := by
        rw [List.tail_nil, ← hsends]
      rw [hsends] at hnext
      change _ = (if (c'.response_len - sent).toNat = 0 then _ else _ : Exec Conn ClientPc)
        { c' with sends := ([] : List Send).tail } at hnext
      rw [if_neg (by omega), htail, hpos, hsent] at hnext
      exact SoloRun.head ClientPc.noConfusion hnext (hstop (Int.lt_irrefl _))
    · exact hstop hlt
  | cons r sends ih =>
    by_cases hlt : sent < c.response_len
    · apply henter hlt
      rw [sendLoop_cons r sends sent hlt] at h
      have hnext := send_next cfg (cfg.skvs_serve c.served) sent c
      rw [hsends] at hnext
      cases r with
      | error eintr =>
        apply SoloRun.head ClientPc.noConfusion hnext
        by_cases hretry : eintr = true ∧ c.g_shutdown = false
        · change (if eintr = true ∧ c.g_shutdown = false then _ else _ : Exec Conn Unit) _ = _ at h
          rw [if_pos hretry] at h
          apply SoloRun.head ClientPc.noConfusion _ (ih rfl h)
          show (if eintr = true ∧ c.g_shutdown = false then _ else _ : Exec Conn ClientPc) _ = _
          rw [if_pos hretry]
          rfl
        · change (if eintr = true ∧ c.g_shutdown = false then _ else _ : Exec Conn Unit) _ = _ at h
          rw [if_neg hretry] at h
          apply SoloRun.single ClientPc.noConfusion
          show (if eintr = true ∧ c.g_shutdown = false then _ else _ : Exec Conn ClientPc) _ = _
          rw [if_neg hretry]
          exact bind_of_ok h
      | sent n =>
        change (if n = 0 then _ else _ : Exec Conn Unit) _ = _ at h
        change _ = (if n = 0 then _ else _ : Exec Conn ClientPc) { c with sends := sends } at hnext
        by_cases hn : n = 0
        · rw [if_pos hn] at h hnext
          exact SoloRun.single ClientPc.noConfusion (hnext.trans (bind_of_ok h))
        · rw [if_neg hn] at h hnext
          exact SoloRun.head ClientPc.noConfusion hnext (ih rfl h)
    · change (if sent < c.response_len then _ else _ : Exec Conn Unit) c = _ at h
      rw [if_neg hlt] at h
      cases h
      exact hstop hlt

/-! ### The per-client loop -/

theorem head_next (answer : Served) (hin : c.g_shutdown = false ∧ c.client_closed = false) :
    clientNext cfg answer .head c
      = (scanLine >>= fun _ => pure .receiving) { c with line_len := -1 } := by
  show (if c.g_shutdown = false ∧ c.client_closed = false then _ else _ : Exec Conn ClientPc) c = _
  rw [if_pos hin]
  rfl

theorem received_next (cfg : Config) (answer : Served) (c : Conn) :
    clientNext cfg answer .received c
      = (if c.client_closed = true ∨ c.g_shutdown = true then pure .close
        else if c.line_len = 1 ∧ c.total_buf.head? = some newline then
          closeClient >>= fun _ => pure .close
        else pure .serve : Exec Conn ClientPc) c := rfl

theorem serving_next (cfg : Config) (answer : Served) (c : Conn) :
    clientNext cfg answer .serving c
      = (if answer.ret < 0 then closeClient >>= fun _ => pure .close
        else pure (if answer.ret = 0 then .head else .sendTest 0) : Exec Conn ClientPc)
        { c with response_len := answer.response_len } := rfl

theorem consume_next (cfg : Config) (answer : Served) (c : Conn) :
    clientNext cfg answer .consume c = (consumeLine >>= fun _ => pure .head) c := rfl

/-- What an iteration does once a line has been received. -/
def afterReceive (cfg : Config) (c : Conn) : Exec Conn Bool :=
  if c.client_closed = true ∨ c.g_shutdown = true then pure false
  else if c.line_len = 1 ∧ c.total_buf.head? = some newline then closeClient >>= fun _ => pure false
  else
    let served := c.served ++ [c.total_buf.take c.line_len.toNat]
    let answer := cfg.skvs_serve served
    (Exec.modify fun s => { s with served := served, response_len := answer.response_len }) >>= fun _ =>
    if answer.ret < 0 then closeClient >>= fun _ => pure false
    else if answer.ret = 0 then pure true
    else reads (·.sends) >>= fun sends => sendLoop sends 0 >>= fun _ => consumeLine >>= fun _ => pure true

/-- Where an iteration that returns `goes` leads. -/
def ClientPc.after (goes : Bool) : ClientPc := if goes = true then .head else .close

theorem solo_afterReceive {goes : Bool} (h : afterReceive cfg c c = .ok goes c') :
    SoloRun cfg (.received, c) (.after goes, c') := by
  have hnext := received_next cfg (cfg.skvs_serve c.served) c
  unfold afterReceive at h
  by_cases hquit : c.client_closed = true ∨ c.g_shutdown = true
  · rw [if_pos hquit] at h hnext
    cases h
    exact SoloRun.single ClientPc.noConfusion hnext
  rw [if_neg hquit] at h hnext
  by_cases hempty : c.line_len = 1 ∧ c.total_buf.head? = some newline
  · rw [if_pos hempty] at h hnext
    obtain ⟨⟨⟩, c₁, h₁, h⟩ := exists_of_bind_ok h
    cases h
    exact SoloRun.single ClientPc.noConfusion (hnext.trans (bind_of_ok h₁))
  rw [if_neg hempty] at h hnext
  apply SoloRun.head ClientPc.noConfusion hnext
  apply SoloRun.head ClientPc.noConfusion (show clientNext cfg _ .serve c = .ok .serving
    { c with served := c.served ++ [c.total_buf.take c.line_len.toNat] } from rfl)
  obtain ⟨⟨⟩, c₁, h₁, h⟩ := exists_of_bind_ok h
  cases h₁
  have hserved := serving_next cfg
    (cfg.skvs_serve (c.served ++ [c.total_buf.take c.line_len.toNat]))
    { c with served := c.served ++ [c.total_buf.take c.line_len.toNat] }
  by_cases hneg : (cfg.skvs_serve (c.served ++ [c.total_buf.take c.line_len.toNat])).ret < 0
  · rw [if_pos hneg] at h hserved
    obtain ⟨⟨⟩, c₂, h₂, h⟩ := exists_of_bind_ok h
    cases h
    exact SoloRun.single ClientPc.noConfusion (hserved.trans (bind_of_ok h₂))
  rw [if_neg hneg] at h hserved
  apply SoloRun.head ClientPc.noConfusion hserved
  by_cases hzero : (cfg.skvs_serve (c.served ++ [c.total_buf.take c.line_len.toNat])).ret = 0
  · rw [if_pos hzero] at h ⊢
    cases h
    exact .refl
  rw [if_neg hzero] at h ⊢
  obtain ⟨sends, c₂, h₂, h⟩ := exists_of_bind_ok h
  cases h₂
  obtain ⟨⟨⟩, c₃, h₃, h⟩ := exists_of_bind_ok h
  obtain ⟨⟨⟩, c₄, h₄, h⟩ := exists_of_bind_ok h
  cases h
  apply (solo_sendLoop rfl h₃).trans
  exact SoloRun.single ClientPc.noConfusion ((consume_next cfg _ c₃).trans (bind_of_ok h₄))

/-- **An iteration** leads back to the head of the loop, or to `close`. -/
theorem solo_clientIteration {goes : Bool} (hin : c.g_shutdown = false ∧ c.client_closed = false)
    (h : clientIteration cfg c = .ok goes c') : SoloRun cfg (.head, c) (.after goes, c') := by
  unfold clientIteration at h
  obtain ⟨⟨⟩, c₀, h₀, h⟩ := exists_of_bind_ok h
  cases h₀
  obtain ⟨⟨⟩, c₁, h₁, h⟩ := exists_of_bind_ok h
  obtain ⟨net, c₂, h₂, h⟩ := exists_of_bind_ok h
  cases h₂
  obtain ⟨⟨⟩, c₂, h₂, h⟩ := exists_of_bind_ok h
  obtain ⟨s, c₃, h₃, h⟩ := exists_of_bind_ok h
  cases h₃
  apply SoloRun.head ClientPc.noConfusion ((head_next _ hin).trans (bind_of_ok h₁))
  apply (solo_receiveLoop rfl h₂).trans
  exact solo_afterReceive h

theorem solo_clientLoop {fuel : ℕ} (h : clientLoop cfg fuel c = .ok () c') :
    SoloRun cfg (.head, c) (.close, c') := by
  induction fuel generalizing c with
  | zero => cases h
  | succ fuel ih =>
    change (if c.g_shutdown = false ∧ c.client_closed = false then _ else _ : Exec Conn Unit) c = _ at h
    by_cases hin : c.g_shutdown = false ∧ c.client_closed = false
    · rw [if_pos hin] at h
      obtain ⟨goes, c₁, h₁, h⟩ := exists_of_bind_ok h
      apply (solo_clientIteration hin h₁).trans
      cases goes with
      | true => exact ih h
      | false =>
        cases h
        exact .refl
    · rw [if_neg hin] at h
      cases h
      apply SoloRun.single ClientPc.noConfusion
      show (if c'.g_shutdown = false ∧ c'.client_closed = false then _ else _ : Exec Conn ClientPc) c' = _
      rw [if_neg hin]
      rfl

/-! ### `g_shutdown` is not written -/

/-- The worker leaves `g_shutdown` as it is. -/
def SameFlag (c c' : Conn) : Prop := c'.g_shutdown = c.g_shutdown

instance : IsPreorder Conn SameFlag where
  refl _ := rfl
  trans _ _ _ h₁ h₂ := h₂.trans h₁

instance : Frames SameFlag closeClient := Frames.modify fun _ => rfl

instance : Frames SameFlag scanLine := Frames.modify fun s => by
  unfold SameFlag
  split <;> rfl

instance {bytes : List Byte} : Frames SameFlag (appendChunk bytes) where
  frames s a s' h := by
    unfold appendChunk at h
    split at h
    · cases h
      rfl
    · cases h

instance : Frames SameFlag consumeLine where
  frames s a s' h := by
    unfold consumeLine at h
    split at h
    · cases h
      rfl
    · cases h

theorem frames_clientNext (cfg : Config) (answer : Served) (pc : ClientPc) :
    Frames SameFlag (clientNext cfg answer pc) := by
  have hset : ∀ {f : Conn → Conn}, (∀ c, (f c).g_shutdown = c.g_shutdown) →
      Frames SameFlag (Exec.modify f) := fun hf => Frames.modify hf
  cases pc with
  | head =>
    refine .bind inferInstance fun s => ?_
    split
    · exact .bind (hset fun _ => rfl) fun _ => inferInstance
    · infer_instance
  | recv =>
    refine .bind inferInstance fun s => .bind (hset fun _ => rfl) fun _ => ?_
    split
    · infer_instance
    · infer_instance
    · infer_instance
  | serve => exact .bind (hset fun _ => rfl) fun _ => inferInstance
  | serving => exact .bind (hset fun _ => rfl) fun _ => inferInstance
  | send sent =>
    refine .bind inferInstance fun s => .bind (hset fun _ => rfl) fun _ => ?_
    split
    · infer_instance
    · infer_instance
  | _ =>
    unfold clientNext
    infer_instance

/-- **A worker alone runs the per-client loop.**  Where the loop ends, for any network and any store,
the worker's own steps lead from its head to `close`, with everything about the client as the loop
leaves it. -/
theorem worker_refines_clientLoop (cfg : Config) (fuel : ℕ) (c c' : Conn) (clientfd : Fd)
    (h : clientLoop cfg fuel c = .ok () c') :
    ReflTransGen (fun p q => ∃ d, WorkerStep cfg c.g_shutdown p d q)
      (.client clientfd .head c) (.client clientfd .close c') := by
  have hstep : ∀ pc c₁ pc' c₂, c₁.g_shutdown = c.g_shutdown → Solo cfg (pc, c₁) (pc', c₂) →
      WorkerStep cfg c.g_shutdown (.client clientfd pc c₁)
        (pc.deed clientfd (cfg.skvs_serve c₁.served)) (.client clientfd pc' c₂) := by
    intro pc c₁ pc' c₂ hflag hsolo
    refine .client _ hsolo.1 ?_
    rw [← hflag]
    exact hsolo.2
  have hrun : ∀ x, SoloRun cfg (.head, c) x → x.2.g_shutdown = c.g_shutdown ∧
      ReflTransGen (fun p q => ∃ d, WorkerStep cfg c.g_shutdown p d q)
        (.client clientfd .head c) (.client clientfd x.1 x.2) := by
    intro x hx
    induction hx with
    | refl => exact ⟨rfl, .refl⟩
    | tail _ hsolo ih =>
      have hframe := (frames_clientNext cfg _ _).frames _ _ _ hsolo.2
      exact ⟨hframe.trans ih.1, ih.2.tail ⟨_, hstep _ _ _ _ ih.1 hsolo⟩⟩
  exact (hrun (.close, c') (solo_clientLoop h)).2

/-- The theorem for a client that sends two lines in one piece: both are served and answered. -/
theorem worker_refines_clientLoop_twoLines :
    ∃ c', c'.served = [[97, newline], [98, 99, newline]] ∧
      ReflTransGen (fun p q => ∃ d, WorkerStep echoConfig false p d q)
        (.client 4 .head (accepted (List.replicate 512 0) twoLines []))
        (.client 4 .close c') := by
  have hstart : Receives echoConfig [] [⟨[97, newline, 98, 99, newline], by decide, by decide⟩] []
      (accepted (List.replicate 512 0) twoLines []) :=
    receives_accepted List.length_replicate fun _ h => by cases h
  obtain ⟨_, c', hok, hserved⟩ : wp (clientLoop echoConfig 7)
      (fun _ s => s.served = [[97, newline], [98, 99, newline]])
      (accepted (List.replicate 512 0) twoLines []) := by
    apply (wp_clientLoop hstart (fun _ => Int.one_pos) (by decide) (by decide)).mono
    intro _ s hserved
    rw [hserved]
    decide
  exact ⟨c', hserved, worker_refines_clientLoop echoConfig 7 _ c' 4 hok⟩

end SystemProgramming.Server
