import SystemProgramming.Lib.CInt
import SystemProgramming.Lib.Transducer

/-!
# `decomment_past.c`

The program reads its input character by character and goes through the states of `DFAState`.  The
helper functions return the variables as they leave them, with what they print; `main` is the loop, up to
the end of file.  A character is what `getchar` returns, an `unsigned char`.
-/

namespace SystemProgramming.Decomment

open CInt

/-- `'\n'` -/
def newline : UInt8 := 10

/-- `' '` -/
def space : UInt8 := 32

/-- `'"'` -/
def doubleQuote : UInt8 := 34

/-- `'\''` -/
def singleQuote : UInt8 := 39

/-- `'*'` -/
def star : UInt8 := 42

/-- `'/'`, 47 in `handleWaitComment` -/
def slash : UInt8 := 47

/-- `'\\'`, 92 in `handleQuote` -/
def backslash : UInt8 := 92

/-- `enum DFAState` -/
inductive DFAState where
  | START | QUOTE | CHAR | WAIT_COMMENT | SINGLELINE | MULTILINE | WAIT_END
  deriving DecidableEq

/-- The variables of `main`. -/
structure Vars where
  state : DFAState
  cquote_type : UInt8
  ibackslash : Bool
  line_cur : ℤ
  line_com : ℤ
  deriving DecidableEq

def handleQuote (v : Vars) (ich : UInt8) : Vars × List UInt8 :=
  if ich = v.cquote_type ∧ v.ibackslash = false then ({ v with state := .START }, [ich])
  else if ich = backslash then ({ v with ibackslash := true }, [ich])
  else if v.ibackslash then ({ v with ibackslash := false }, [ich])
  else (v, [ich])

def handleWaitComment (v : Vars) (ich : UInt8) : Vars × List UInt8 :=
  if ich = slash then ({ v with state := .SINGLELINE }, [space])
  else if ich = star then ({ v with state := .MULTILINE, line_com := v.line_cur }, [space])
  else ({ v with state := .START }, [slash, ich])

def handleWaitEnd (v : Vars) (ich : UInt8) : Vars × List UInt8 :=
  if ich = slash then ({ v with state := .START }, [])
  else if ich = star then ({ v with state := .WAIT_END }, [])
  else ({ v with state := .MULTILINE }, [])

/-- `switch(state)` -/
def switch (v : Vars) (ich : UInt8) : Vars × List UInt8 :=
  match v.state with
  | .START =>
    if ich = slash then ({ v with state := .WAIT_COMMENT }, [])
    else if ich = doubleQuote ∨ ich = singleQuote then
      ({ v with cquote_type := ich, state := .QUOTE }, [ich])
    else (v, [ich])
  | .QUOTE => handleQuote v ich
  | .WAIT_COMMENT => handleWaitComment v ich
  | .SINGLELINE =>
    if ich = newline then ({ v with state := .START }, [space, newline]) else (v, [])
  | .MULTILINE =>
    if ich = star then ({ v with state := .WAIT_END }, [])
    else if ich = newline then (v, [newline])
    else (v, [])
  | .WAIT_END => handleWaitEnd v ich
  | .CHAR => (v, [])

/-- One round of the loop, for a character. -/
def readChar (v : Vars) (ich : UInt8) : Vars × List UInt8 :=
  let r := switch v ich
  (if ich = newline then { r.1 with line_cur := addInt r.1.line_cur 1 } else r.1, r.2)

def EXIT_SUCCESS : ℤ := 0

def EXIT_FAILURE : ℤ := 1

/-- What the program writes, and the status it ends with. -/
structure Run where
  stdout : List UInt8
  stderr : String
  code : ℤ
  deriving DecidableEq

/-- The line that reports an unterminated comment. -/
def errorLine (line_com : ℤ) : String := s!"Error: line {line_com}: unterminated comment\n"

/-- The text that the program writes to `stderr` at the end of file. -/
def report (v : Vars) : String :=
  if v.state = .MULTILINE ∨ v.state = .WAIT_END then errorLine v.line_com else ""

/-- The loop of `main`, from the variables `v` on. -/
def mainFrom (v : Vars) : List UInt8 → Run
  | [] => ⟨[], report v, EXIT_SUCCESS⟩
  | ich :: stdin =>
    let r := readChar v ich
    let rest := mainFrom r.1 stdin
    { rest with stdout := r.2 ++ rest.stdout }

/-- The variables before the loop.  `cquote_type` is not initialised; it is read in `QUOTE` only. -/
def start (cquote_type : UInt8) : Vars := ⟨.START, cquote_type, false, 1, -1⟩

/-- `main`, with what happens to stand in `cquote_type`. -/
def main (cquote_type : UInt8) (stdin : List UInt8) : Run := mainFrom (start cquote_type) stdin

/-! ### The loop as a transducer -/

def machine : Transducer Vars UInt8 UInt8 := ⟨readChar⟩

theorem mainFrom_eq (v : Vars) (stdin : List UInt8) : mainFrom v stdin
    = ⟨machine.output v stdin, report (machine.state v stdin), EXIT_SUCCESS⟩ := by
  induction stdin generalizing v with
  | nil => rfl
  | cons ich stdin ih =>
    rw [mainFrom, ih]
    rfl

section Main

variable (c : UInt8) (stdin : List UInt8)

theorem main_stdout : (main c stdin).stdout = machine.output (start c) stdin := by
  rw [main, mainFrom_eq]

theorem main_stderr : (main c stdin).stderr = report (machine.state (start c) stdin) := by
  rw [main, mainFrom_eq]

theorem main_code : (main c stdin).code = EXIT_SUCCESS := by
  rw [main, mainFrom_eq]

end Main

/-! ### One round -/

/-- The line counter apart, a round does what the `switch` does. -/
theorem readChar_fst (v : Vars) (ich : UInt8) :
    (readChar v ich).1.state = (switch v ich).1.state ∧
      (readChar v ich).1.cquote_type = (switch v ich).1.cquote_type ∧
      (readChar v ich).1.ibackslash = (switch v ich).1.ibackslash ∧
      (readChar v ich).1.line_com = (switch v ich).1.line_com := by
  unfold readChar
  by_cases h : ich = newline
  · simp [h]
  · simp [h]

end SystemProgramming.Decomment
