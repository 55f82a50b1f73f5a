import SystemProgramming.Lib.Exec
import Mathlib.Data.Int.Notation

/-!
# The per-client loop of `handle_client`

A worker thread receives bytes into `total_buf`, passes each complete line to `skvs_serve` and sends
the answer back.  What the network does is part of the state: `net` is what the next calls of `recv`
return (then end of file), `sends` what the next calls of `send` return.  `skvs_serve` is code of
another library and is a parameter.  An access outside `total_buf` aborts.
-/

namespace SystemProgramming.Server

open Exec

abbrev Byte := UInt8

/-- `'\n'`. -/
def newline : Byte := 10

/-- The bytes that one `recv` into `single_buf` returns: at least one and at most 512. -/
structure Chunk where
  bytes : List Byte
  nonempty : bytes ≠ []
  fits : bytes.length ≤ 512

/-- What a call of `recv` returns: bytes, 0 at end of file, or -1 with `errno`. -/
inductive Recv where
  | data (c : Chunk)
  | eof
  | error (eintr : Bool)

/-- What a call of `send` returns: how much it took, at most what it was given, or -1. -/
inductive Send where
  | sent (n : ℕ)
  | error (eintr : Bool)
  deriving DecidableEq

/-- What `skvs_serve` returns, and what `response_len` holds after the call.  The call is given the address
of an `int` as that of a `size_t`; the bytes behind the `int` that it writes as well are not modelled. -/
structure Served where
  ret : ℤ
  response_len : ℤ

/-- What the loop is compiled and linked with.  `skvs_serve` may answer from everything it has been
passed, the last line being the one it is called with. -/
structure Config where
  BUF_SIZE : ℕ
  buf_size_ge : 512 ≤ BUF_SIZE
  skvs_serve : List (List Byte) → Served

/-- The locals of the loop, the network, and `served`, the lines passed to `skvs_serve`. -/
structure Conn where
  g_shutdown : Bool
  client_closed : Bool
  total_buf : List Byte
  total_used : ℕ
  line_len : ℤ
  response_len : ℤ
  net : List Recv
  sends : List Send
  served : List (List Byte)

/-- `for (i = 0; i < total_used; i++) if (total_buf[i] == '\n') { line_len = i + 1; break; }` -/
def scanLine : Exec Conn Unit := Exec.modify fun s =>
  match (s.total_buf.take s.total_used).findIdx? (· = newline) with
  | some i => { s with line_len := i + 1 }
  | none => s

/-- `memcpy(total_buf + total_used, single_buf, buf_len); total_used += buf_len;` -/
def appendChunk (bytes : List Byte) : Exec Conn Unit := fun s =>
  if s.total_used + bytes.length ≤ s.total_buf.length then
    .ok () { s with
      total_buf := s.total_buf.take s.total_used ++ bytes
        ++ s.total_buf.drop (s.total_used + bytes.length)
      total_used := s.total_used + bytes.length }
  else .abort

/-- `memmove(total_buf, total_buf + line_len, total_used - line_len); total_used -= line_len;` -/
def consumeLine : Exec Conn Unit := fun s =>
  if 0 ≤ s.line_len ∧ s.line_len ≤ s.total_used ∧ s.total_used ≤ s.total_buf.length then
    .ok () { s with
      total_buf := (s.total_buf.take s.total_used).drop s.line_len.toNat
        ++ s.total_buf.drop (s.total_used - s.line_len.toNat)
      total_used := s.total_used - s.line_len.toNat }
  else .abort

/-- `client_closed = 1;` -/
def closeClient : Exec Conn Unit := Exec.modify fun s => { s with client_closed := true }

variable (cfg : Config)

/-- `line_len < 0 && !g_shutdown && !client_closed` -/
def Conn.Receiving (s : Conn) : Prop :=
  s.line_len < 0 ∧ s.g_shutdown = false ∧ s.client_closed = false

instance (s : Conn) : Decidable s.Receiving := inferInstanceAs (Decidable (_ ∧ _ ∧ _))

/-- `while (line_len < 0 && !g_shutdown && !client_closed)`: accumulate the full request line.  The
argument is what `net` holds when the condition is tested. -/
def receiveLoop : List Recv → Exec Conn Unit
  | [] => do
    let s ← reads id
    when s.Receiving closeClient
  | r :: net => do
    let s ← reads id
    if s.Receiving then do
      modify fun s => { s with net := net }
      match r with
      | .eof => closeClient
      | .error eintr =>
        if eintr = true ∧ s.g_shutdown = false then receiveLoop net else closeClient
      | .data c =>
        if s.total_used + c.bytes.length > cfg.BUF_SIZE then closeClient
        else do
          appendChunk c.bytes
          scanLine
          receiveLoop net
    else pure ()

/-- `while (sent < response_len)`: send the response.  When `sends` is used up, `send` takes all that
is left. -/
def sendLoop : List Send → ℤ → Exec Conn Unit
  | [], _ => pure ()
  | r :: sends, sent => do
    let s ← reads id
    if sent < s.response_len then do
      Exec.modify fun s => { s with sends := sends }
      match r with
      | .error eintr =>
        if eintr = true ∧ s.g_shutdown = false then sendLoop sends sent else closeClient
      | .sent n =>
        if n = 0 then closeClient
        else sendLoop sends (sent + min (n : ℤ) (s.response_len - sent))
    else pure ()

/-- The body of `while (!g_shutdown && !client_closed)`; `true` when it ends without `break`. -/
def clientIteration : Exec Conn Bool := do
  Exec.modify fun s => { s with line_len := -1 }
  scanLine
  receiveLoop cfg (← reads (·.net))
  let s ← reads id
  if s.client_closed = true ∨ s.g_shutdown = true then
    return false
  if s.line_len = 1 ∧ s.total_buf.head? = some newline then
    closeClient
    return false
  let served := s.served ++ [s.total_buf.take s.line_len.toNat]
  let answer := cfg.skvs_serve served
  Exec.modify fun s => { s with served := served, response_len := answer.response_len }
  if answer.ret < 0 then
    closeClient
    return false
  else if answer.ret = 0 then
    return true   -- `continue`: the line stays in the buffer
  sendLoop (← reads (·.sends)) 0
  consumeLine
  return true

/-- The per-client loop, evaluated for at most `fuel` iterations. -/
def clientLoop : ℕ → Exec Conn Unit
  | 0 => timeout
  | fuel + 1 => do
    let s ← reads id
    if s.g_shutdown = false ∧ s.client_closed = false then
      if ← clientIteration cfg then clientLoop fuel else pure ()
    else pure ()

/-- A client that has just been accepted: `buf` is what the stack array happens to hold. -/
def accepted (buf : List Byte) (net : List Recv) (sends : List Send) : Conn where
  g_shutdown := false
  client_closed := false
  total_buf := buf
  total_used := 0
  line_len := -1
  response_len := 0
  net := net
  sends := sends
  served := []

end SystemProgramming.Server
