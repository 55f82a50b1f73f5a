import SystemProgramming.Server.Client
import SystemProgramming.Lib.Lines
import Mathlib.Logic.Relation
import Mathlib.Data.List.Infix

/-!
# The line buffer

What `total_buf[0..total_used)` holds at the head of every iteration of the per-client loop, for every
network, every behaviour of `send` and every `skvs_serve`: the bytes received so far without the lines
that have been consumed.

* `HeadInv.iteration`: one iteration keeps the invariant and stays inside `total_buf`.
* `handle_client_buffer`: so it is at the head of every iteration.
-/

namespace SystemProgramming.Server

open Exec Lines

variable {cfg : Config} {p q : List Byte} {s : Conn}

/-- `total_buf` has its size and `total_buf[0..total_used)` holds `p`. -/
structure Buffered (cfg : Config) (p : List Byte) (s : Conn) : Prop where
  size : s.total_buf.length = cfg.BUF_SIZE
  used : s.total_used = p.length
  buffer : s.total_buf.take p.length = p

theorem Buffered.bounded (h : Buffered cfg p s) : p.length ≤ cfg.BUF_SIZE := by
  have hlen := congrArg List.length h.buffer
  rw [List.length_take, h.size] at hlen
  omega

theorem Buffered.held (h : Buffered cfg p s) : s.total_buf.take s.total_used = p := by
  rw [h.used]
  exact h.buffer

/-- The slice of the buffer that is passed on. -/
theorem Buffered.firstLine {line : List Byte} (h : Buffered cfg (line ++ q) s)
    (hlen : s.line_len = line.length) : s.total_buf.take s.line_len.toNat = line := by
  have hle : line.length ≤ (line ++ q).length := by
    rw [List.length_append]
    omega
  have htake := congrArg (List.take line.length) h.buffer
  rw [List.take_take, Nat.min_eq_left hle, List.take_left] at htake
  rw [hlen, Int.toNat_natCast, htake]

/-! ### The steps of one iteration -/

/-- The value of `line_len` after the scan of a buffer that holds `p`. -/
def lineLen (p : List Byte) : ℤ :=
  match p.findIdx? (· = newline) with
  | some i => i + 1
  | none => -1

theorem lineLen_of_not_mem (h : newline ∉ p) : lineLen p = -1 := by
  have hnone : p.findIdx? (· = newline) = none := by
    rw [List.findIdx?_eq_none_iff]
    intro x hx
    exact decide_eq_false fun heq => h (heq ▸ hx)
  rw [lineLen, hnone]

theorem lineLen_append_cons {xs ys : List Byte} (h : newline ∉ xs) :
    lineLen (xs ++ newline :: ys) = xs.length + 1 := by
  have hsome : (xs ++ newline :: ys).findIdx? (· = newline) = some xs.length := by
    have hnone : xs.findIdx? (· = newline) = none := by
      rw [List.findIdx?_eq_none_iff]
      intro x hx
      exact decide_eq_false fun heq => h (heq ▸ hx)
    rw [List.findIdx?_append, hnone, List.findIdx?_cons]
    simp
  rw [lineLen, hsome]

theorem lineLen_neg_iff : lineLen p < 0 ↔ newline ∉ p := by
  constructor
  · intro hneg hmem
    obtain ⟨xs, ys, hxs, rfl⟩ := exists_first hmem
    rw [lineLen_append_cons hxs] at hneg
    omega
  · intro hmem
    rw [lineLen_of_not_mem hmem]
    decide

theorem wp_scanLine {Q : Unit → Conn → Prop} (h : Buffered cfg p s) (hlen : s.line_len = -1)
    (hQ : Q () { s with line_len := lineLen p }) : wp scanLine Q s := by
  unfold scanLine
  rw [wp_modify, h.used, h.buffer]
  unfold lineLen at hQ
  cases hfind : p.findIdx? (· = newline) with
  | none =>
    rw [hfind] at hQ
    show Q () s
    rw [← hlen] at hQ
    exact hQ
  | some i =>
    rw [hfind] at hQ
    rw [← h.used]
    exact hQ

/-- `memcpy` behind the bytes that are there. -/
theorem wp_appendChunk {Q : Unit → Conn → Prop} {bytes : List Byte} (h : Buffered cfg p s)
    (hfit : p.length + bytes.length ≤ cfg.BUF_SIZE)
    (hQ : ∀ buf used, Buffered cfg (p ++ bytes) { s with total_buf := buf, total_used := used } →
      Q () { s with total_buf := buf, total_used := used }) :
    wp (appendChunk bytes) Q s := by
  have hused := h.used
  have hsize := h.size
  have hroom : s.total_used + bytes.length ≤ s.total_buf.length := by omega
  refine ⟨(), _, if_pos hroom, hQ _ _ ?_⟩
  constructor
  · simp only [List.length_append, List.length_take, List.length_drop]
    omega
  · simp only [List.length_append]
    omega
  · simp only [h.held]
    exact List.take_left

/-- `memmove` of what follows the line. -/
theorem wp_consumeLine {Q : Unit → Conn → Prop} {line : List Byte}
    (h : Buffered cfg (line ++ p) s) (hlen : s.line_len = line.length)
    (hQ : ∀ buf used, Buffered cfg p { s with total_buf := buf, total_used := used } →
      Q () { s with total_buf := buf, total_used := used }) : wp consumeLine Q s := by
  have hused := h.used
  have hsize := h.size
  have hbound := h.bounded
  rw [List.length_append] at hused hbound
  have hin : 0 ≤ s.line_len ∧ s.line_len ≤ s.total_used ∧ s.total_used ≤ s.total_buf.length := by
    omega
  have hnat : s.line_len.toNat = line.length := by omega
  have hrest : (s.total_buf.take s.total_used).drop s.line_len.toNat = p := by
    rw [h.held, hnat]
    exact List.drop_left
  refine ⟨(), _, if_pos hin, hQ _ _ ?_⟩
  constructor
  · simp only [hrest, List.length_append, List.length_drop]
    omega
  · show s.total_used - s.line_len.toNat = p.length
    omega
  · simp only [hrest]
    exact List.take_left

/-- A call of `send` that takes something, or is interrupted and retried. -/
def Send.Succeeds : Send → Prop
  | .sent n => 0 < n
  | .error eintr => eintr = true

/-- The response is sent, however `send` cuts it; only a call that fails closes the client. -/
theorem wp_sendLoop {Q : Unit → Conn → Prop} {sends : List Send} {sent : ℤ}
    (hsends : s.sends = sends)
    (hQ : ∀ closed rest, (∀ x ∈ rest, x ∈ sends) →
      (s.g_shutdown = false → (∀ x ∈ sends, x.Succeeds) → closed = s.client_closed) →
      Q () { s with client_closed := closed, sends := rest }) :
    wp (sendLoop sends sent) Q s := by
  have hsame : Q () s := by
    have := hQ s.client_closed sends (fun _ hx => hx) (fun _ _ => rfl)
    rw [← hsends] at this
    exact this
  induction sends generalizing s sent with
  | nil => exact (wp_pure ()).mpr hsame
  | cons r sends ih =>
    have hclose : (s.g_shutdown = false → ¬ r.Succeeds) →
        wp closeClient Q { s with sends := sends } := by
      intro hfail
      apply (wp_modify _).mpr
      exact hQ true sends (fun _ hx => List.mem_cons_of_mem r hx)
        fun hrun hall => absurd (hall r List.mem_cons_self) (hfail hrun)
    have hgo : ∀ sent', wp (sendLoop sends sent') Q { s with sends := sends } := by
      intro sent'
      have hnext : ∀ closed rest, (∀ x ∈ rest, x ∈ sends) →
          (s.g_shutdown = false → (∀ x ∈ sends, x.Succeeds) → closed = s.client_closed) →
          Q () { s with client_closed := closed, sends := rest } := by
        intro closed rest hrest hclosed
        apply hQ closed rest fun x hx => List.mem_cons_of_mem r (hrest x hx)
        exact fun hrun hall => hclosed hrun fun x hx => hall x (List.mem_cons_of_mem r hx)
      exact ih rfl hnext (hnext s.client_closed sends (fun _ hx => hx) fun _ _ => rfl)
    unfold sendLoop
    rw [wp_bind, wp_reads, wp_ite]
    refine ⟨fun _ => ?_, fun _ => (wp_pure ()).mpr hsame⟩
    rw [wp_bind, wp_modify]
    cases r with
    | sent n =>
      show wp (if n = 0 then closeClient else _) Q _
      rw [wp_ite]
      exact ⟨fun hn => hclose fun _ hr => absurd hn (Nat.pos_iff_ne_zero.mp hr), fun _ => hgo _⟩
    | error eintr =>
      show wp (if eintr = true ∧ s.g_shutdown = false then _ else closeClient) Q _
      rw [wp_ite]
      exact ⟨fun _ => hgo _, fun hno => hclose fun hrun hr => hno ⟨hr, hrun⟩⟩

/-! ### What has been received and what has been consumed -/

/-- The bytes that a call of `recv` brings. -/
def Recv.bytes : Recv → List Byte
  | .data c => c.bytes
  | .eof => []
  | .error _ => []

/-- The bytes that some calls of `recv` bring. -/
def arrived (net : List Recv) : List Byte := net.flatMap Recv.bytes

@[simp] theorem arrived_nil : arrived [] = [] := rfl

@[simp] theorem arrived_cons (r : Recv) (net : List Recv) :
    arrived (r :: net) = r.bytes ++ arrived net := rfl

@[simp] theorem arrived_append (net net' : List Recv) :
    arrived (net ++ net') = arrived net ++ arrived net' := List.flatMap_append

/-- The lines removed from the buffer: those for which `skvs_serve` returned a positive value. -/
def consumedLines (cfg : Config) (served : List (List Byte)) : List (List Byte) :=
  (served.inits.filter fun history => 0 < (cfg.skvs_serve history).ret).filterMap List.getLast?

@[simp] theorem consumedLines_nil : consumedLines cfg [] = [] := by
  show (List.filter _ [[]]).filterMap List.getLast? = []
  rw [List.filter_singleton]
  cases decide (0 < (cfg.skvs_serve []).ret) <;> rfl

@[simp] theorem consumedLines_append (served : List (List Byte)) (line : List Byte) :
    consumedLines cfg (served ++ [line])
      = consumedLines cfg served ++
        if 0 < (cfg.skvs_serve (served ++ [line])).ret then [line] else [] := by
  have hinits : (served ++ [line]).inits = served.inits ++ [served ++ [line]] := by
    rw [List.inits_append]
    rfl
  unfold consumedLines
  rw [hinits, List.filter_append, List.filterMap_append]
  by_cases hpos : 0 < (cfg.skvs_serve (served ++ [line])).ret
  · simp [hpos]
  · simp [hpos]

/-- A line: it ends in a newline and has no other. -/
def IsLine (l : List Byte) : Prop := ∃ xs, newline ∉ xs ∧ l = xs ++ [newline]

/-- **The invariant** at the head of an iteration: what was received is what was consumed, then the
buffer, and only lines have been passed on. -/
structure HeadInv (cfg : Config) (net : List Recv) (s : Conn) : Prop where
  kept : ∃ pre p, net = pre ++ s.net ∧ Buffered cfg p s ∧
    (consumedLines cfg s.served).flatten ++ p = arrived pre
  lines : ∀ l ∈ s.served, IsLine l

/-- The receive loop closes the client, or it has appended what it received. -/
theorem wp_receiveLoop_appends {Q : Unit → Conn → Prop} {net : List Recv} (hnet : s.net = net)
    (h : Buffered cfg p s) (hlen : s.line_len = lineLen p)
    (hclosed : ∀ s', s'.client_closed = true → s'.served = s.served → Q () s')
    (hdone : ∀ s' pre, net = pre ++ s'.net → Buffered cfg (p ++ arrived pre) s' →
      s'.line_len = lineLen (p ++ arrived pre) → s'.served = s.served → ¬ s'.Receiving → Q () s') :
    wp (receiveLoop cfg net) Q s := by
  have hstop : ¬ s.Receiving → Q () s := by
    intro hrec
    apply hdone s [] hnet.symm
    · rwa [arrived_nil, List.append_nil]
    · rwa [arrived_nil, List.append_nil]
    · rfl
    · exact hrec
  induction net generalizing s p with
  | nil =>
    unfold receiveLoop
    rw [wp_bind, wp_reads, wp_when]
    exact ⟨fun _ => (wp_modify _).mpr (hclosed _ rfl rfl), hstop⟩
  | cons r net ih =>
    unfold receiveLoop
    rw [wp_bind, wp_reads, wp_ite]
    refine ⟨fun hrec => ?_, fun hrec => (wp_pure ()).mpr (hstop hrec)⟩
    have hneg : s.line_len = -1 := by
      rw [hlen, lineLen_of_not_mem]
      rw [← lineLen_neg_iff, ← hlen]
      exact hrec.1
    -- the loop goes on in `s'`, in which the bytes of `r` have been appended
    have hgo : ∀ s', s'.net = net → Buffered cfg (p ++ r.bytes) s' →
        s'.line_len = lineLen (p ++ r.bytes) → s'.served = s.served →
        wp (receiveLoop cfg net) Q s' := by
      intro s' hn hb hl hs
      have hdone' : ∀ t pre, net = pre ++ t.net → Buffered cfg (p ++ r.bytes ++ arrived pre) t →
          t.line_len = lineLen (p ++ r.bytes ++ arrived pre) → t.served = s'.served →
          ¬ t.Receiving → Q () t := by
        intro t pre hpre hbt hlt hst hrt
        apply hdone t (r :: pre)
        · rw [hpre]
          rfl
        · rwa [arrived_cons, ← List.append_assoc]
        · rwa [arrived_cons, ← List.append_assoc]
        · rw [hst, hs]
        · exact hrt
      apply ih hn hb hl (fun t hc ht => hclosed t hc (ht.trans hs)) hdone'
      intro hrs
      apply hdone' s' [] hn.symm
      · rwa [arrived_nil, List.append_nil]
      · rwa [arrived_nil, List.append_nil]
      · rfl
      · exact hrs
    rw [wp_bind, wp_modify]
    have hb : Buffered cfg p { s with net := net } := ⟨h.size, h.used, h.buffer⟩
    cases r with
    | eof => exact (wp_modify _).mpr (hclosed _ rfl rfl)
    | error eintr =>
      show wp (if eintr = true ∧ s.g_shutdown = false then _ else closeClient) Q _
      rw [wp_ite]
      refine ⟨fun _ => ?_, fun _ => (wp_modify _).mpr (hclosed _ rfl rfl)⟩
      apply hgo _ rfl
      · rw [Recv.bytes, List.append_nil]
        exact hb
      · rw [Recv.bytes, List.append_nil]
        exact hlen
      · rfl
    | data c =>
      show wp (if s.total_used + c.bytes.length > cfg.BUF_SIZE then closeClient else _) Q _
      rw [wp_ite]
      refine ⟨fun _ => (wp_modify _).mpr (hclosed _ rfl rfl), fun hfit => ?_⟩
      rw [h.used] at hfit
      rw [wp_bind]
      apply wp_appendChunk hb (by omega)
      intro buf used hb'
      rw [wp_bind]
      exact wp_scanLine hb' hneg (hgo _ rfl ⟨hb'.size, hb'.used, hb'.buffer⟩ rfl rfl)

/-- **One iteration** keeps the invariant, passes only lines on, and stays inside `total_buf`. -/
theorem HeadInv.iteration {net : List Recv} (h : HeadInv cfg net s) :
    wp (clientIteration cfg)
      (fun goes s' => (∀ l ∈ s'.served, IsLine l) ∧ (goes = true → HeadInv cfg net s')) s := by
  obtain ⟨pre, p, hnet, hb, hkept⟩ := h.kept
  unfold clientIteration
  rw [wp_bind, wp_modify, wp_bind]
  have hb₀ : Buffered cfg p { s with line_len := -1 } := ⟨hb.size, hb.used, hb.buffer⟩
  apply wp_scanLine hb₀ rfl
  rw [wp_bind, wp_reads, wp_bind]
  have hb₁ : Buffered cfg p { s with line_len := lineLen p } := ⟨hb.size, hb.used, hb.buffer⟩
  apply wp_receiveLoop_appends rfl hb₁ rfl
  · intro s' hc hs'
    rw [wp_bind, wp_reads, id, if_pos (Or.inl hc)]
    apply (wp_pure false).mpr
    rw [hs']
    exact ⟨h.lines, fun hf => by cases hf⟩
  · intro t pre' hpre' hbt hlt hst hrt
    rw [wp_bind, wp_reads, id, wp_ite]
    constructor
    · intro _
      apply (wp_pure false).mpr
      rw [hst]
      exact ⟨h.lines, fun hf => by cases hf⟩
    intro hopen
    rw [wp_ite]
    constructor
    · intro _
      rw [wp_bind]
      apply (wp_modify _).mpr
      apply (wp_pure false).mpr
      rw [hst]
      exact ⟨h.lines, fun hf => by cases hf⟩
    intro _
    -- the loop was left neither for a shutdown nor for a closed client, so a line is there
    have hmem : newline ∈ p ++ arrived pre' := by
      by_contra hno
      rw [← lineLen_neg_iff, ← hlt] at hno
      apply hrt
      refine ⟨hno, ?_, ?_⟩
      · exact Bool.eq_false_iff.mpr fun hg => hopen (Or.inr hg)
      · exact Bool.eq_false_iff.mpr fun hc => hopen (Or.inl hc)
    obtain ⟨xs, ys, hxs, hsplit⟩ := exists_first hmem
    have hsplit' : p ++ arrived pre' = (xs ++ [newline]) ++ ys := by simp [hsplit]
    rw [hsplit'] at hbt
    have hlen : t.line_len = (xs ++ [newline]).length := by
      rw [hlt, hsplit, lineLen_append_cons hxs, List.length_append]
      rfl
    rw [hbt.firstLine hlen, hst, wp_bind, wp_modify]
    have hlines : ∀ l ∈ s.served ++ [xs ++ [newline]], IsLine l := by
      intro l hl
      rcases List.mem_append.mp hl with hold | hnew
      · exact h.lines l hold
      · exact ⟨xs, hxs, List.mem_singleton.mp hnew⟩
    have hall : net = (pre ++ pre') ++ t.net := by
      rw [hnet, List.append_assoc, ← hpre']
    have hbytes : (consumedLines cfg s.served).flatten ++ (xs ++ [newline] ++ ys)
        = arrived (pre ++ pre') := by
      rw [← hsplit', ← List.append_assoc, hkept, arrived_append]
    rw [wp_ite]
    constructor
    · intro _
      rw [wp_bind]
      apply (wp_modify _).mpr
      exact (wp_pure false).mpr ⟨hlines, fun hf => by cases hf⟩
    intro hneg
    rw [wp_ite]
    constructor
    · -- the line stays in the buffer
      intro hzero
      apply (wp_pure true).mpr
      refine ⟨hlines, fun _ => ⟨⟨_, _, hall, ⟨hbt.size, hbt.used, hbt.buffer⟩, ?_⟩, hlines⟩⟩
      rw [consumedLines_append, if_neg (by omega), List.append_nil]
      exact hbytes
    · intro hzero
      rw [wp_bind, wp_reads, wp_bind]
      apply wp_sendLoop rfl
      intro closed rest _ _
      rw [wp_bind]
      apply wp_consumeLine
      · exact ⟨hbt.size, hbt.used, hbt.buffer⟩
      · exact hlen
      · intro buf used hbu
        apply (wp_pure true).mpr
        refine ⟨hlines, fun _ => ⟨⟨_, _, hall, ⟨hbu.size, hbu.used, hbu.buffer⟩, ?_⟩, hlines⟩⟩
        rw [consumedLines_append, if_pos (by omega), List.flatten_append, ← hbytes]
        simp only [List.flatten_singleton, List.append_assoc]

/-! ### Every iteration -/

/-- The loop condition holds in `s`, and the iteration ends in `s'`, where it is tested again. -/
def Iterates (cfg : Config) (s s' : Conn) : Prop :=
  s.g_shutdown = false ∧ s.client_closed = false ∧ clientIteration cfg s = .ok true s'

/-- `s` is the state at the head of an iteration of a loop that started in `s₀`. -/
def AtHead (cfg : Config) (s₀ s : Conn) : Prop := Relation.ReflTransGen (Iterates cfg) s₀ s

theorem headInv_accepted {buf : List Byte} {net : List Recv} {sends : List Send}
    (hbuf : buf.length = cfg.BUF_SIZE) : HeadInv cfg net (accepted buf net sends) := by
  have hkept : (consumedLines cfg []).flatten ++ [] = arrived [] := by
    rw [consumedLines_nil]
    rfl
  exact ⟨⟨[], [], rfl, ⟨hbuf, rfl, rfl⟩, hkept⟩, fun _ h => by cases h⟩

theorem HeadInv.atHead {net : List Recv} {s₀ : Conn} (h : HeadInv cfg net s₀)
    (hs : AtHead cfg s₀ s) : HeadInv cfg net s := by
  induction hs with
  | refl => exact h
  | tail _ hstep ih =>
    obtain ⟨goes, t, ht, -, hnext⟩ := ih.iteration
    rw [hstep.2.2] at ht
    cases ht
    exact hnext rfl

/-- **The line buffer.**  At the head of every iteration the lines consumed so far, followed by the
buffer, are the bytes received so far, the buffer is within its bounds, and the iteration accesses
nothing outside it and passes nothing but lines to `skvs_serve`. -/
theorem handle_client_buffer (cfg : Config) (buf : List Byte) (hbuf : buf.length = cfg.BUF_SIZE)
    (net : List Recv) (sends : List Send) (s : Conn) (hs : AtHead cfg (accepted buf net sends) s) :
    (∃ pre, net = pre ++ s.net ∧
      (consumedLines cfg s.served).flatten ++ s.total_buf.take s.total_used = arrived pre) ∧
    s.total_used ≤ cfg.BUF_SIZE ∧
    wp (clientIteration cfg) (fun _ s' => ∀ l ∈ s'.served, IsLine l) s := by
  have hinv := (headInv_accepted hbuf).atHead hs
  obtain ⟨pre, p, hnet, hb, hkept⟩ := hinv.kept
  refine ⟨⟨pre, hnet, ?_⟩, ?_, ?_⟩
  · rw [hb.held]
    exact hkept
  · rw [hb.used]
    exact hb.bounded
  · exact hinv.iteration.mono fun _ _ h => h.1

section Echo

/-- A server whose store answers each line with one byte. -/
def echoConfig : Config where
  BUF_SIZE := 512
  buf_size_ge := Nat.le_refl 512
  skvs_serve := fun _ => { ret := 1, response_len := 1 }

/-- Two requests in one piece. -/
def twoLines : List Recv := [.data ⟨[97, newline, 98, 99, newline], by decide, by decide⟩]

set_option maxRecDepth 8000 in
/-- The theorem after one iteration: the first of the two lines has been consumed. -/
theorem handle_client_buffer_second :
    ∃ s, AtHead echoConfig (accepted (List.replicate 512 0) twoLines []) s ∧
      (consumedLines echoConfig s.served).flatten = [97, newline] ∧
      (∃ pre, twoLines = pre ++ s.net ∧
        (consumedLines echoConfig s.served).flatten ++ s.total_buf.take s.total_used
          = arrived pre) ∧
      s.total_used ≤ echoConfig.BUF_SIZE ∧
      wp (clientIteration echoConfig) (fun _ s' => ∀ l ∈ s'.served, IsLine l) s := by
  have hstep : ∃ s, Iterates echoConfig (accepted (List.replicate 512 0) twoLines []) s ∧
      s.served = [[97, newline]] := ⟨_, ⟨rfl, rfl, rfl⟩, rfl⟩
  obtain ⟨s, hs, hserved⟩ := hstep
  have hhead : AtHead echoConfig (accepted (List.replicate 512 0) twoLines []) s :=
    Relation.ReflTransGen.single hs
  refine ⟨s, hhead, ?_, handle_client_buffer echoConfig _ List.length_replicate twoLines [] s hhead⟩
  rw [hserved]
  decide +kernel

end Echo

end SystemProgramming.Server
