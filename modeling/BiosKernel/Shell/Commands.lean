import BiosKernel.Shell.Calculator
import BiosKernel.Shell.History
import BiosKernel.Shell.WorkingDirectory

namespace BiosKernel
open ByteMem Checked Runs
set_option autoImplicit true

/-- What a command shows, character by character, or asks for. -/
inductive Output where
  | char (c : UInt8)
  | clear
  | dnsRequest (name : CString)
  deriving DecidableEq

/-- What the commands find around the shell. `behind` is the memory behind the buffer of `cat`, and
`input` the lines that are typed while the command runs. -/
structure Surroundings where
  vfs : VfsCalls
  listDir : CString → Result (List CString)
  table : FdpArr
  behind : Mem
  input : List CString

/-- What a command does: it shows something, and may change the working directory, end the shell and
write to the buffer of its third argument. -/
structure Effect where
  output : List Output
  currWd : CString
  exits : Bool
  trimmed : Option CString

/-- The pointers of `argv`. -/
abbrev Argv := Int → Option CString

def deref (ptr : Option CString) : ShellResult CString :=
  match ptr with
  | none => .error .pointer
  | some s => .ok s

def shcmdEcho (argc : Nat) (argv : Argv) : ShellResult (List UInt8) :=
  if argc = 0 then .ok []
  else if argc = 1 ∨ (argv 1).elim 0 strlen = 0 then .ok (ascii "\n")
  else do
    let str ← deref (strjoin ((argc : Int) - 1) (fun i => argv (i + 1)) argvDelim)
    return str ++ ascii "\n"

/-- The part of `shcmd_printf` for a number, with what it leaves of the buffer. -/
def printfNumber (hex : Bool) (arg : CString) : List UInt8 × CString :=
  let (buffer, s) := trimwhitespace arg
  if isnumber s then
    (if hex then itoa (atoi s).toInt 16 ++ ascii "\n"
      else itoa (atoi s).toInt32.toInt 10 ++ ascii "\n", buffer)
  else (s.text ++ ascii ": expected a numeric value\n", buffer)

/-- `shcmd_printf`, which does not look at `argc` for the arguments it needs. -/
def shcmdPrintf (argc : Nat) (argv : Argv) : ShellResult (List UInt8 × Option CString) :=
  match argv 1 with
  | none => .ok ([], none)
  | some format =>
    if strcmp format (ascii "%s") = 0 then
      if (argv 2).elim 0 strlen = 0 then .ok ([], none)
      else do
        let str ← deref (strjoin ((argc : Int) - 2) (fun i => argv (i + 2)) [])
        return (str ++ ascii "\n", none)
    else if strcmp format (ascii "%d") ≠ 0 ∧ strcmp format (ascii "%x") ≠ 0 then
      if format.at0 = 37 then
        .ok (format.text ++ ascii ": invalid conversion specification\n", none)
      else .ok (format.text ++ ascii "\n", none)
    else
      match argv 2 with
      | none => .ok (ascii "0\n", none)
      | some arg =>
        let (out, buffer) := printfNumber (strcmp format (ascii "%x") = 0) arg
        .ok (out, some buffer)

def shcmdPwd (currWd : CString) (argc : Nat) : List UInt8 :=
  currWd.text ++ if argc = 0 then [] else ascii "\n"

/-- `PROMPT`. -/
def prompt : List UInt8 := ascii "> "

/-- What `bc_main` prints for an expression. -/
def bcAnswer (res : Int32) (err : Nat) : List UInt8 :=
  if err = errNone then itoa res.toInt 10 ++ ascii "\n"
  else if err = errSyntax then ascii "Syntax error\n"
  else if err = errDivisionByZero then ascii "Division by zero\n"
  else []

/-- The loop of `bc_main` over the lines that are typed. An empty one ends it. -/
def bcMain : List CString → ShellResult (List UInt8)
  | [] => .error .waiting
  | line :: lines =>
    let s := fgets 256 line
    if s = [] ∨ strcmp s (ascii "exit") = 0 ∨ strcmp s (ascii "quit") = 0 then .ok prompt
    else do
      let (res, e) ← (bcEval s).mapError .trap
      let rest ← bcMain lines
      return prompt ++ bcAnswer res e.err ++ rest

def shcmdNslookup (argc : Nat) (argv : Argv) : ShellResult (List Output) := do
  if argc < 2 then
    let name ← deref (argv 0)
    return (ascii "Usage: " ++ name.text ++ ascii " <name server>\n").map .char
  else
    let name ← deref (argv 1)
    return [.dnsRequest name.text]

/-- The argument that `ls` and `cat` take if there is one. -/
def firstArg (argc : Nat) (argv : Argv) : ShellResult (Option CString) :=
  if argc ≤ 1 then .ok none else some <$> deref (argv 1)

def shcmdLs (env : Surroundings) (currWd : CString) (argc : Nat) (argv : Argv) :
    ShellResult (List UInt8) := do
  let arg ← firstArg argc argv
  let path := (arg.elim (preprocessPath currWd) (argumentPath currWd)).getD []
  let found ← (env.vfs.pathExists path).mapError .trap
  if found = 1 then
    let list ← (env.listDir path).mapError .trap
    return list.flatMap fun data => data.text ++ ascii "\n"
  else if found = 0 then return ascii "The path doesn't exist!\n"
  else return ascii "The path exists but isn't a dir!\n"

def shcmdNotfound (argv : Argv) : ShellResult (List UInt8) := do
  let name ← deref (argv 0)
  return ascii "bioshell: " ++ name.text ++ ascii ": command not found\n"

inductive Shcmd where
  | echo
  | printf
  | pwd
  | shutdown
  | exit
  | bc
  | clear
  | nslookup
  | cd
  | ls
  | cat
  | notfound
  deriving DecidableEq

/-- `shcmd_str` with `shcmd_table`. -/
def shcmdTable : List (CString × Shcmd) :=
  [(ascii "echo", .echo), (ascii "printf", .printf), (ascii "pwd", .pwd),
    (ascii "shutdown", .shutdown), (ascii "exit", .exit), (ascii "bc", .bc),
    (ascii "clear", .clear), (ascii "nslookup", .nslookup), (ascii "cd", .cd), (ascii "ls", .ls),
    (ascii "cat", .cat)]

/-- The search of `parse_cmd`. -/
def findShcmd (cmd : CString) : Shcmd :=
  ((shcmdTable.find? fun entry => strcmp cmd entry.1 = 0).map Prod.snd).getD .notfound

/-- A command that only prints. -/
def Effect.prints (currWd : CString) (text : List UInt8) : Effect :=
  ⟨text.map .char, currWd, false, none⟩

def Shcmd.call (env : Surroundings) (currWd : CString) (argc : Nat) (argv : Argv) :
    Shcmd → ShellResult Effect
  | .echo => .prints currWd <$> shcmdEcho argc argv
  | .printf => do
    let (text, trimmed) ← shcmdPrintf argc argv
    return { Effect.prints currWd text with trimmed := trimmed }
  | .pwd => .ok (.prints currWd (shcmdPwd currWd argc))
  | .shutdown => .error .powerOff
  | .exit => .ok ⟨[], currWd, true, none⟩
  | .bc => .prints currWd <$> bcMain env.input
  | .clear => .ok ⟨[.clear], currWd, false, none⟩
  | .nslookup => do
    let output ← shcmdNslookup argc argv
    return ⟨output, currWd, false, none⟩
  | .cd => do
    let r ← shcmdCd env.vfs currWd argc (argv 1)
    if maxPathSize < r.written then .error .overflow else return .prints r.currWd r.output
  | .ls => .prints currWd <$> shcmdLs env currWd argc argv
  | .cat => do
    let arg ← firstArg argc argv
    let r ← (shcmdCat env.table env.vfs env.behind currWd arg).mapError .file
    return .prints currWd r.output
  | .notfound => .prints currWd <$> shcmdNotfound argv

namespace Tty

/-- The third argument of the slot has been written to. -/
def setArg (tty : Tty) (slot : Int) (ptr : Option CString) : Tty :=
  match ptr with
  | none => tty
  | some ptr => { tty with
      cache := Function.update tty.cache slot
        ((tty.cache slot).map fun args => Function.update args 2 (some ptr)) }

/-- `parse_cmd` for the slot, with what is shown. -/
def parseCmd (tty : Tty) (env : Surroundings) (ci : Int) : ShellResult (List Output × Tty) :=
  if tty.cargc ci = 0 ∨ (tty.cache ci).isNone then .ok ([], tty)
  else do
    let cmd ← deref (tty.argv ci 0)
    let effect ← (findShcmd cmd).call env tty.currWd (tty.cargc ci) (tty.argv ci)
    return (effect.output, { tty.setArg ci effect.trimmed with
      currWd := effect.currWd
      alive := tty.alive && !effect.exits
      active := true })

/-- A round of the loop of `shell_init` behind the prompt. -/
def enter (tty : Tty) (env : Surroundings) (line : CString) : ShellResult (List Output × Tty) :=
  let (ci, tty) := tty.getCmd line
  tty.parseCmd env ci

end Tty

inductive ShellOp where
  | command (env : Surroundings) (line : CString)
  | next
  | previous

namespace ShellOp

def step (tty : Tty) : ShellOp → Option Tty
  | .command env line =>
    if tty.alive then
      match tty.enter env line with
      | .ok r => some r.2
      | .error _ => none
    else none
  | .next => (tty.traverseCache 1).map Prod.fst
  | .previous => (tty.traverseCache (-1)).map Prod.fst

/-- A line has no terminator in it. -/
def Typed : ShellOp → Prop
  | .command _ line => 0 ∉ line
  | .next => True
  | .previous => True

end ShellOp

/-- The states of the shell behind any commands that came back to the prompt. -/
def Tty.Reachable (tty : Tty) : Prop :=
  ∃ ops : List ShellOp, (∀ op ∈ ops, op.Typed) ∧ run ShellOp.step initTty ops = some tty

end BiosKernel
