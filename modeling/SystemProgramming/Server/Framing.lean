import SystemProgramming.Server.Buffer

/-!
# Request framing

For a client that sends a stream in pieces and then closes, with a `skvs_serve` that always has an
answer: which lines reach `skvs_serve`.  `framedLines` says it for every segmentation, and
`handle_client_framing` compares it with the lines of the stream.

* `wp_clientIteration`, `wp_clientLoop`: which lines one iteration passes on, and which all of them.
* `handle_client_framing`: when these are the lines of the stream.
* `handle_client_framing_fails`: a stream of legal lines that are lost.
-/

namespace SystemProgramming.Server

open Exec Lines

variable {cfg : Config} {p : List Byte} {cs : List Chunk} {ls : List (List Byte)} {s : Conn}

/-- The stream that a segmentation cuts. -/
def stream (cs : List Chunk) : List Byte := (cs.map Chunk.bytes).flatten

@[simp] theorem stream_nil : stream [] = [] := rfl

@[simp] theorem stream_cons (c : Chunk) : stream (c :: cs) = c.bytes ++ stream cs := rfl

/-- The connection is open, `p` is in the buffer, `cs` is still to come and `ls` has been served. -/
structure Receives (cfg : Config) (p : List Byte) (cs : List Chunk) (ls : List (List Byte))
    (s : Conn) : Prop where
  running : s.g_shutdown = false
  alive : s.client_closed = false
  size : s.total_buf.length = cfg.BUF_SIZE
  used : s.total_used = p.length
  buffer : s.total_buf.take p.length = p
  net : s.net = cs.map Recv.data
  sends : ∀ x ∈ s.sends, x.Succeeds
  served : s.served = ls

theorem Receives.buffered (h : Receives cfg p cs ls s) : Buffered cfg p s :=
  ⟨h.size, h.used, h.buffer⟩

/-! ### The receive loop -/

/-- The receive loop goes on exactly while the buffer has no complete line. -/
theorem Receives.receiving_iff (h : Receives cfg p cs ls s) (hlen : s.line_len = lineLen p) :
    s.Receiving ↔ newline ∉ p := by
  rw [← lineLen_neg_iff, ← hlen]
  constructor
  · exact fun hrec => hrec.1
  · exact fun hneg => ⟨hneg, h.running, h.alive⟩

/-- Only the buffer, the network and the log matter, not `line_len`. -/
theorem Receives.setLineLen (h : Receives cfg p cs ls s) (n : ℤ) :
    Receives cfg p cs ls { s with line_len := n } :=
  ⟨h.running, h.alive, h.size, h.used, h.buffer, h.net, h.sends, h.served⟩

/-! ### What reaches `skvs_serve` -/

/-- The lines served from a buffer that holds `p` when `cs` is still to come: those in the buffer, and
then, if the next piece as a whole fits behind the unfinished line, those that it completes. -/
def framedLines (BUF_SIZE : ℕ) : List Byte → List Chunk → List (List Byte)
  | p, [] => completeLines newline p
  | p, c :: cs => completeLines newline p ++
      if (partialLine newline p).length + c.bytes.length > BUF_SIZE then []
      else framedLines BUF_SIZE (partialLine newline p ++ c.bytes) cs

theorem framedLines_line {BUF_SIZE : ℕ} {xs : List Byte} (h : newline ∉ xs) :
    framedLines BUF_SIZE (xs ++ newline :: p) cs
      = (xs ++ [newline]) :: framedLines BUF_SIZE p cs := by
  cases cs with
  | nil => exact completeLines_append_cons h
  | cons c cs =>
    simp only [framedLines, completeLines_append_cons h, partialLine_append_cons h]
    rfl

theorem framedLines_part {BUF_SIZE : ℕ} {c : Chunk} (h : newline ∉ p) :
    framedLines BUF_SIZE p (c :: cs)
      = if p.length + c.bytes.length > BUF_SIZE then []
        else framedLines BUF_SIZE (p ++ c.bytes) cs := by
  simp only [framedLines, completeLines_of_not_mem h, partialLine_of_not_mem h, List.nil_append]

/-- The receive loop stops with a line in the buffer, or closes when no further line will be
served. -/
theorem wp_receiveLoop {Q : Unit → Conn → Prop} {net : List Recv} (hnet : net = cs.map Recv.data)
    (h : Receives cfg p cs ls s) (hlen : s.line_len = lineLen p)
    (hclosed : ∀ s', s'.client_closed = true → s'.served = ls →
      framedLines cfg.BUF_SIZE p cs = [] → Q () s')
    (hline : ∀ s' q ds, Receives cfg q ds ls s' → newline ∈ q → s'.line_len = lineLen q →
      q ++ stream ds = p ++ stream cs →
      framedLines cfg.BUF_SIZE q ds = framedLines cfg.BUF_SIZE p cs → Q () s') :
    wp (receiveLoop cfg net) Q s := by
  rw [hnet]
  clear hnet
  induction cs generalizing s p with
  | nil =>
    unfold receiveLoop
    rw [List.map_nil, wp_bind, wp_reads, wp_when, id, h.receiving_iff hlen]
    constructor
    · intro hmem
      exact (wp_modify _).mpr (hclosed _ rfl h.served (completeLines_of_not_mem hmem))
    · intro hmem
      exact hline s p [] h (not_not.mp hmem) hlen rfl rfl
  | cons c cs ih =>
    unfold receiveLoop
    rw [List.map_cons, wp_bind, wp_reads, wp_ite, id, h.receiving_iff hlen]
    constructor
    · intro hmem
      have hnext : Receives cfg p cs ls { s with net := cs.map Recv.data } := { h with net := rfl }
      have hneg : s.line_len = -1 := by rw [hlen, lineLen_of_not_mem hmem]
      rw [wp_bind, wp_modify, wp_ite]
      constructor
      · intro hover
        rw [h.used] at hover
        apply (wp_modify _).mpr
        exact hclosed _ rfl h.served (by rw [framedLines_part hmem, if_pos hover])
      · intro hfit
        rw [h.used] at hfit
        have hframed : framedLines cfg.BUF_SIZE (p ++ c.bytes) cs
            = framedLines cfg.BUF_SIZE p (c :: cs) := by
          rw [framedLines_part hmem, if_neg hfit]
        rw [wp_bind]
        apply wp_appendChunk hnext.buffered (by omega)
        intro buf used hb
        have ht : Receives cfg (p ++ c.bytes) cs ls
            { s with net := cs.map Recv.data, total_buf := buf, total_used := used } :=
          { hnext with size := hb.size, used := hb.used, buffer := hb.buffer }
        rw [wp_bind]
        apply wp_scanLine hb hneg
        apply ih (ht.setLineLen _) rfl
        · intro s' hc hs' hnil
          exact hclosed s' hc hs' (by rw [← hframed, hnil])
        · intro s' q ds hq hmemq hlenq hstream hfr
          apply hline s' q ds hq hmemq hlenq
          · rw [hstream, stream_cons, List.append_assoc]
          · rw [hfr, hframed]
    · intro hmem
      exact (wp_pure ()).mpr (hline s p (c :: cs) h (not_not.mp hmem) hlen rfl rfl)

/-! ### The whole loop -/

/-- **One iteration.**  It closes the client, or passes the first line on; the answer says whether the
client is dropped, the line stays in the buffer or the line is removed. -/
theorem wp_clientIteration {Q : Bool → Conn → Prop} (h : Receives cfg p cs ls s)
    (hclosed : ∀ s', s'.served = ls → framedLines cfg.BUF_SIZE p cs = [] → Q false s')
    (hempty : ∀ s' ls' ls'', s'.served = ls → completeLines newline (p ++ stream cs) = [newline] :: ls' →
      framedLines cfg.BUF_SIZE p cs = [newline] :: ls'' → Q false s')
    (hline : ∀ line q ds, line ≠ [] → line ≠ [newline] →
      line ++ (q ++ stream ds) = p ++ stream cs →
      completeLines newline (p ++ stream cs) = line :: completeLines newline (q ++ stream ds) →
      framedLines cfg.BUF_SIZE p cs = line :: framedLines cfg.BUF_SIZE q ds →
      ((cfg.skvs_serve (ls ++ [line])).ret < 0 → ∀ s', s'.served = ls ++ [line] → Q false s') ∧
      ((cfg.skvs_serve (ls ++ [line])).ret = 0 → ∀ s' r,
        framedLines cfg.BUF_SIZE r ds = framedLines cfg.BUF_SIZE p cs →
        Receives cfg r ds (ls ++ [line]) s' → Q true s') ∧
      (0 < (cfg.skvs_serve (ls ++ [line])).ret → ∀ s',
        Receives cfg q ds (ls ++ [line]) s' → Q true s')) :
    wp (clientIteration cfg) Q s := by
  unfold clientIteration
  rw [wp_bind, wp_modify, wp_bind]
  apply wp_scanLine (h.setLineLen (-1)).buffered rfl
  rw [wp_bind, wp_reads, wp_bind]
  apply wp_receiveLoop h.net (h.setLineLen _) rfl
  · intro s' hc hs' hnil
    rw [wp_bind, wp_reads, id, if_pos (Or.inl hc)]
    exact (wp_pure false).mpr (hclosed s' hs' hnil)
  · intro s' q ds hq hmem hlen hstream hframed
    obtain ⟨xs, ys, hxs, rfl⟩ := exists_first hmem
    have hline_len : s'.line_len = xs.length + 1 := hlen.trans (lineLen_append_cons hxs)
    have hsplit : xs ++ newline :: ys = (xs ++ [newline]) ++ ys := by simp
    have hlines : completeLines newline (p ++ stream cs)
        = (xs ++ [newline]) :: completeLines newline (ys ++ stream ds) := by
      rw [← hstream, List.append_assoc, List.cons_append, completeLines_append_cons hxs]
    have hframed' : framedLines cfg.BUF_SIZE p cs
        = (xs ++ [newline]) :: framedLines cfg.BUF_SIZE ys ds := by
      rw [← hframed, framedLines_line hxs]
    have hopen : ¬ (s'.client_closed = true ∨ s'.g_shutdown = true) := by
      rw [hq.alive, hq.running]
      decide
    rw [wp_bind, wp_reads, id, if_neg hopen, wp_ite]
    constructor
    · intro hone
      have hnil : xs = [] := List.length_eq_zero_iff.mp (by omega)
      subst hnil
      rw [wp_bind]
      apply (wp_modify _).mpr
      apply (wp_pure false).mpr
      exact hempty _ _ _ hq.served hlines hframed'
    intro hbig
    have hne : xs ++ [newline] ≠ [newline] := by
      intro hone
      have hnil : xs = [] := List.append_left_eq_self.mp hone
      subst hnil
      have hhead := congrArg List.head? hq.buffer
      rw [List.head?_take, if_neg (by simp)] at hhead
      exact hbig ⟨by rw [hline_len]; rfl, hhead⟩
    have hb : Buffered cfg ((xs ++ [newline]) ++ ys) s' := by
      rw [← hsplit]
      exact hq.buffered
    have hlen' : s'.line_len = (xs ++ [newline]).length := by
      rw [hline_len, List.length_append]
      rfl
    have hstream' : (xs ++ [newline]) ++ (ys ++ stream ds) = p ++ stream cs := by
      rw [← hstream, hsplit]
      simp only [List.append_assoc]
    obtain ⟨hneg, hzero, hpos⟩ :=
      hline (xs ++ [newline]) ys ds (List.append_ne_nil_of_right_ne_nil _ (List.cons_ne_nil _ _)) hne
        hstream' hlines hframed'
    have hq' : Receives cfg (xs ++ newline :: ys) ds (ls ++ [xs ++ [newline]])
        { s' with
          served := ls ++ [xs ++ [newline]]
          response_len := (cfg.skvs_serve (ls ++ [xs ++ [newline]])).response_len } :=
      { hq with served := rfl }
    rw [hb.firstLine hlen', hq.served, wp_bind, wp_modify, wp_ite]
    constructor
    · intro hret
      rw [wp_bind]
      apply (wp_modify _).mpr
      exact (wp_pure false).mpr (hneg hret _ rfl)
    intro hret
    rw [wp_ite]
    constructor
    · intro hret0
      exact (wp_pure true).mpr (hzero hret0 _ _ hframed hq')
    · intro hret0
      rw [wp_bind, wp_reads, wp_bind]
      apply wp_sendLoop rfl
      intro closed rest hrest hclosed'
      have hsame : closed = s'.client_closed := hclosed' hq.running hq.sends
      subst hsame
      rw [wp_bind]
      apply wp_consumeLine
      · exact ⟨hb.size, hb.used, hb.buffer⟩
      · exact hlen'
      · intro buf used hbu
        apply (wp_pure true).mpr
        apply hpos (by omega)
        exact
          { running := hq.running
            alive := hq.alive
            size := hbu.size
            used := hbu.used
            buffer := hbu.buffer
            net := hq.net
            sends := fun x hx => hq.sends x (hrest x hx)
            served := rfl }

/-- **Which lines are served**, however the stream is cut and however `send` behaves. -/
theorem wp_clientLoop {fuel : ℕ} (h : Receives cfg p cs ls s)
    (hserve : ∀ ls, 0 < (cfg.skvs_serve ls).ret)
    (hempty : [newline] ∉ completeLines newline (p ++ stream cs))
    (hfuel : (p ++ stream cs).length + 1 < fuel) :
    wp (clientLoop cfg fuel)
      (fun _ s' => s'.served = ls ++ framedLines cfg.BUF_SIZE p cs) s := by
  induction fuel generalizing p cs ls s with
  | zero => omega
  | succ fuel ih =>
    unfold clientLoop
    rw [wp_bind, wp_reads, id, if_pos ⟨h.running, h.alive⟩, wp_bind]
    apply wp_clientIteration h
    · intro s' hs' hnil
      apply (wp_pure ()).mpr
      rw [hs', hnil, List.append_nil]
    · intro s' ls' _ _ hfirst _
      apply absurd _ hempty
      rw [hfirst]
      exact List.mem_cons_self
    · intro line q ds hne _ hstream hlines hframed
      have hret := hserve (ls ++ [line])
      refine ⟨fun hneg => by omega, fun hzero => by omega, fun _ s' hq => ?_⟩
      have hpos := List.length_pos_iff.mpr hne
      have hlen := congrArg List.length hstream
      rw [List.length_append] at hlen
      have hempty' : [newline] ∉ completeLines newline (q ++ stream ds) := by
        intro hmem
        apply hempty
        rw [hlines]
        exact List.mem_cons_of_mem line hmem
      have hnext := ih hq hempty' (by omega)
      rw [List.append_assoc, List.singleton_append, ← hframed] at hnext
      exact hnext

/-! ### The framing condition -/

/-- **The framing condition.**  Every piece up to the last newline fits, as a whole, behind the
unfinished line before it. -/
def PiecesFit (BUF_SIZE : ℕ) (cs : List Chunk) : Prop :=
  ∀ pre c post, cs = pre ++ c :: post → newline ∈ stream (c :: post) →
    (partialLine newline (stream pre)).length + c.bytes.length ≤ BUF_SIZE

/-- What is served is the lines of the stream exactly when the pieces fit. -/
theorem framedLines_eq_iff {BUF_SIZE : ℕ} :
    framedLines BUF_SIZE p cs = completeLines newline (p ++ stream cs) ↔
      ∀ pre c post, cs = pre ++ c :: post → newline ∈ stream (c :: post) →
        (partialLine newline (p ++ stream pre)).length + c.bytes.length ≤ BUF_SIZE := by
  induction cs generalizing p with
  | nil =>
    rw [stream_nil, List.append_nil]
    constructor
    · intro _ pre c post hsplit
      exact absurd hsplit.symm (List.append_ne_nil_of_right_ne_nil _ (List.cons_ne_nil _ _))
    · exact fun _ => rfl
  | cons c cs ih =>
    have hlines : completeLines newline (p ++ stream (c :: cs)) = completeLines newline p ++
        completeLines newline (partialLine newline p ++ c.bytes ++ stream cs) := by
      rw [completeLines_append, stream_cons, List.append_assoc]
    have hunfinished : ∀ pre, partialLine newline (p ++ stream (c :: pre))
        = partialLine newline (partialLine newline p ++ c.bytes ++ stream pre) := by
      intro pre
      rw [partialLine_append, stream_cons, List.append_assoc]
    rw [hlines, framedLines, List.append_cancel_left_eq]
    by_cases hover : (partialLine newline p).length + c.bytes.length > BUF_SIZE
    · rw [if_pos hover, eq_comm, completeLines_eq_nil]
      have hmem : newline ∉ partialLine newline p ++ c.bytes ++ stream cs ↔
          newline ∉ stream (c :: cs) := by
        rw [List.append_assoc, List.mem_append, stream_cons]
        simp only [not_mem_partialLine, false_or]
      rw [hmem]
      constructor
      · intro hnone pre d post hsplit hd
        apply absurd _ hnone
        rw [hsplit, stream, List.map_append, List.flatten_append]
        exact List.mem_append_right _ hd
      · intro hall hd
        have := hall [] c cs rfl hd
        rw [stream_nil, List.append_nil] at this
        omega
    · rw [if_neg hover, ih]
      constructor
      · intro hall pre d post hsplit hd
        cases pre with
        | nil =>
          cases hsplit
          rw [stream_nil, List.append_nil]
          omega
        | cons b pre =>
          cases hsplit
          rw [hunfinished]
          exact hall pre d post rfl hd
      · intro hall pre d post hsplit hd
        rw [← hunfinished]
        exact hall (c :: pre) d post (by rw [hsplit]; rfl) hd

theorem receives_accepted {buf : List Byte} {sends : List Send} (hbuf : buf.length = cfg.BUF_SIZE)
    (hsends : ∀ x ∈ sends, x.Succeeds) :
    Receives cfg [] cs [] (accepted buf (cs.map Recv.data) sends) :=
  ⟨rfl, rfl, hbuf, rfl, rfl, rfl, hsends, rfl⟩

/-- **Request framing.**  For a stream whose lines are legal, the loop ends, and the lines passed to
`skvs_serve` are the complete lines of the stream, in order and each once, exactly when every piece up
to the last newline fits behind the unfinished line before it. -/
theorem handle_client_framing (cfg : Config) (hserve : ∀ ls, 0 < (cfg.skvs_serve ls).ret)
    (buf : List Byte) (hbuf : buf.length = cfg.BUF_SIZE)
    (sends : List Send) (hsends : ∀ x ∈ sends, x.Succeeds) (cs : List Chunk)
    (hlines : ∀ l ∈ completeLines newline (stream cs), l ≠ [newline] ∧ l.length ≤ cfg.BUF_SIZE)
    (fuel : ℕ) (hfuel : (stream cs).length + 1 < fuel) :
    wp (clientLoop cfg fuel)
      (fun _ s => s.served = completeLines newline (stream cs) ↔ PiecesFit cfg.BUF_SIZE cs)
      (accepted buf (cs.map Recv.data) sends) := by
  have hempty : [newline] ∉ completeLines newline ([] ++ stream cs) :=
    fun hmem => (hlines _ hmem).1 rfl
  apply (wp_clientLoop (receives_accepted hbuf hsends) hserve hempty hfuel).mono
  intro _ s hserved
  rw [hserved, List.nil_append]
  exact framedLines_eq_iff

section Segmentations

/-- A request of 401 bytes and one of 199, received as 300 and 300 bytes. -/
def pipelined : List Chunk :=
  [⟨List.replicate 300 97, by decide +kernel, by decide +kernel⟩,
   ⟨List.replicate 100 97 ++ newline :: List.replicate 198 98 ++ [newline], by decide +kernel,
     by decide +kernel⟩]

/-- The two requests one by one. -/
def separate : List Chunk :=
  [⟨List.replicate 300 97, by decide +kernel, by decide +kernel⟩,
   ⟨List.replicate 100 97 ++ [newline], by decide +kernel, by decide +kernel⟩,
   ⟨List.replicate 198 98 ++ [newline], by decide +kernel, by decide +kernel⟩]

/-- The theorem at a segmentation that fits. -/
theorem handle_client_framing_separate :
    wp (clientLoop echoConfig 602)
      (fun _ s => s.served = completeLines newline (stream separate) ↔
        PiecesFit echoConfig.BUF_SIZE separate)
      (accepted (List.replicate 512 0) (separate.map Recv.data) []) :=
  handle_client_framing echoConfig (fun _ => Int.one_pos) (List.replicate 512 0)
    List.length_replicate [] (fun _ h => by cases h) separate (by decide +kernel) 602
    (by decide +kernel)

/-- **Legal lines are lost.**  Both lines of the stream are legal, but the loop ends without passing
any of them on: with the 300 bytes that are there, the second 300 are too many. -/
theorem handle_client_framing_fails :
    (∀ l ∈ completeLines newline (stream pipelined),
      l ≠ [newline] ∧ l.length ≤ echoConfig.BUF_SIZE) ∧
    wp (clientLoop echoConfig 602)
      (fun _ s => s.served = [] ∧ (completeLines newline (stream pipelined)).length = 2)
      (accepted (List.replicate 512 0) (pipelined.map Recv.data) []) := by
  have hlegal : ∀ l ∈ completeLines newline (stream pipelined),
      l ≠ [newline] ∧ l.length ≤ echoConfig.BUF_SIZE := by decide +kernel
  have hstart : Receives echoConfig [] pipelined []
      (accepted (List.replicate 512 0) (pipelined.map Recv.data) []) :=
    receives_accepted List.length_replicate fun _ h => by cases h
  refine ⟨hlegal, (wp_clientLoop hstart (fun _ => Int.one_pos) ?_ ?_).mono ?_⟩
  · exact fun hmem => (hlegal _ hmem).1 rfl
  · decide +kernel
  · intro _ s hserved
    rw [hserved]
    decide +kernel

end Segmentations

end SystemProgramming.Server
