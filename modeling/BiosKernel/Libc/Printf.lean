import BiosKernel.Libc.Itoa

namespace BiosKernel
open Checked Positional
set_option autoImplicit true

/-- `INT_MAX`. -/
def intMax : Nat := 2 ^ 31 - 1

/-- The character that begins a conversion. -/
def percent : UInt8 := 37

/-- The arguments behind the format, with the types that `va_arg` takes them as. -/
inductive PrintfArg where
  | int (i : Int32)
  | string (s : CString)
  | uint32 (i : UInt32)
  | int64 (i : Int64)

inductive PrintfFault where
  | endless
  | wrongArgument
  deriving DecidableEq

/-- What `print` has been given, and the value that is returned. `putchar` returns the byte it gets,
so `print` never fails. -/
structure Printed where
  out : CString
  value : Int
  deriving DecidableEq

/-- What `itoa` leaves in a buffer of zeros. -/
def itoaBuffer (num : Int64) (base : Int32) : Except PrintfFault CString :=
  match itoa64 num base with
  | .ok (some str) => .ok str
  | .ok none => .ok []
  | .error _ => .error .endless

/-- The loop of `%b`, which puts the digits before `ptr`. -/
def binaryLoop : Nat → Int64 → CString → Except PrintfFault CString
  | 0, _, _ => .error .endless
  | rounds + 1, i, ptr =>
    let ptr := (if i &&& 1 ≠ 0 then 49 else 48) :: ptr
    let i := i >>> 1
    if i > 0 then binaryLoop rounds i ptr else .ok ptr

/-- The characters that `printf` knows behind a percent sign. -/
def conversions : List UInt8 := [99, 115, 100, 117, 120, 112, 98]

/-- The text of a conversion. -/
def conversionText (conversion : UInt8) : PrintfArg → Except PrintfFault CString
  | .int i =>
    if conversion = 99 then .ok [i.toUInt32.toUInt8]
    else if conversion = 100 then itoaBuffer i.toInt64 10
    else .error .wrongArgument
  | .string s => if conversion = 115 then .ok s.text else .error .wrongArgument
  | .uint32 i =>
    if conversion = 117 then itoaBuffer (Int64.ofNat i.toNat) 10 else .error .wrongArgument
  | .int64 i =>
    if conversion = 120 then itoaBuffer i 16
    else if conversion = 112 then do
      let tmp ← itoaBuffer i 16
      return 48 :: 120 :: tmp
    else if conversion = 98 then do
      let ptr ← binaryLoop 64 i []
      return 48 :: 98 :: ptr
    else .error .wrongArgument

/-- The length of the literal text at the beginning of the format, of one character at least. -/
def literalLength (format : CString) : Nat :=
  1 + (format.tail.takeWhile fun c => c ≠ 0 ∧ c ≠ percent).length

def printfLoop : Nat → CString → List PrintfArg → Nat → CString → Except PrintfFault Printed
  | 0, _, _, _, _ => .error .endless
  | rounds + 1, format, args, written, out =>
    let maxrem := intMax - written
    if format.at0 = 0 then .ok ⟨out, written⟩
    else if format.at0 ≠ percent ∨ CString.at0 format.tail = percent then
      let format := if format.at0 = percent then format.tail else format
      let amount := literalLength format
      if maxrem < amount then .ok ⟨out, -1⟩
      else
        printfLoop rounds (format.drop amount) args (written + amount) (out ++ format.take amount)
    else if CString.at0 format.tail ∈ conversions then
      match args.head? with
      | none => .error .wrongArgument
      | some arg =>
        -- only `%s` can be empty
        if CString.at0 format.tail ≠ 115 ∧ maxrem = 0 then .ok ⟨out, -1⟩
        else do
          let str ← conversionText (CString.at0 format.tail) arg
          if maxrem < str.length then .ok ⟨out, -1⟩
          else
            printfLoop rounds (format.drop 2) args.tail (written + str.length) (out ++ str)
    else
      let len := strlen format
      if maxrem < len then .ok ⟨out, -1⟩
      else printfLoop rounds (format.drop len) args (written + len) (out ++ format.take len)

/-- `printf` of the kernel. The format is none for a null pointer. -/
def printf (format : Option CString) (args : List PrintfArg) : Except PrintfFault Printed :=
  match format with
  | none =>
    .ok ⟨"printf error: format is 0x0\n".toList.map fun c => UInt8.ofNat c.toNat, -1⟩
  | some format => printfLoop (format.length + 1) format args 0 []

theorem not_literal (h : c ≠ percent) : ¬ (percent ≠ percent ∨ c = percent) := by
  rintro (hne | heq)
  · exact hne rfl
  · exact h heq

theorem printfLoop_end (rounds : Nat) (args : List PrintfArg) (written : Nat) (out : CString) :
    printfLoop (rounds + 1) [] args written out = .ok ⟨out, written⟩ := by
  rw [printfLoop]
  exact if_pos rfl

/-- Where there is room for it, a round writes `piece` and leaves the rest of the format and of the
arguments to the rounds that follow. -/
def Writes (format : CString) (args : List PrintfArg) (piece rest : CString)
    (args' : List PrintfArg) : Prop :=
  ∀ rounds written out, written + piece.length ≤ intMax →
    printfLoop (rounds + 1) format args written out =
      printfLoop rounds rest args' (written + piece.length) (out ++ piece)

theorem writes_literal (h0 : c ≠ 0) (h : c ≠ percent)
    (hlen : literalLength (c :: run ++ rest) = (c :: run).length) (args : List PrintfArg) :
    Writes (c :: run ++ rest) args (c :: run) rest args := by
  intro rounds written out hroom
  have hmaxrem : ¬ intMax - written < (c :: run).length := by omega
  have hfirst : CString.at0 (c :: run ++ rest) = c := rfl
  rw [printfLoop]
  dsimp only
  rw [hfirst, if_neg h0, if_pos (.inl h), if_neg h, hlen, if_neg hmaxrem, List.drop_left,
    List.take_left]

theorem writes_double (hlen : literalLength (percent :: run ++ rest) = (percent :: run).length)
    (args : List PrintfArg) :
    Writes (percent :: (percent :: run ++ rest)) args (percent :: run) rest args := by
  intro rounds written out hroom
  have hmaxrem : ¬ intMax - written < (percent :: run).length := by omega
  have hfirst : CString.at0 (percent :: (percent :: run ++ rest)) = percent := rfl
  rw [printfLoop]
  dsimp only
  rw [hfirst, if_neg (by decide), if_pos (.inr rfl), if_pos rfl, List.tail_cons, hlen,
    if_neg hmaxrem, List.drop_left, List.take_left]

theorem writes_conversion (hc : c ∈ conversions) (htext : conversionText c arg = .ok text)
    (hempty : c = 115 ∨ text ≠ []) (rest : CString) (args : List PrintfArg) :
    Writes (percent :: c :: rest) (arg :: args) text rest args := by
  intro rounds written out hroom
  have hmaxrem : ¬ intMax - written < text.length := by omega
  have hspace : ¬ (c ≠ 115 ∧ intMax - written = 0) := by
    rintro ⟨hs, hfull⟩
    have := List.length_pos_of_ne_nil (hempty.resolve_left hs)
    omega
  have hfirst : CString.at0 (percent :: c :: rest) = percent := rfl
  have hsecond : CString.at0 (List.tail (percent :: c :: rest)) = c := rfl
  have hpercent : c ≠ percent := by
    rintro rfl
    exact absurd hc (by decide)
  rw [printfLoop]
  dsimp only
  rw [hfirst, hsecond, if_neg (by decide), if_neg (not_literal hpercent), if_pos hc,
    List.head?_cons]
  dsimp only
  rw [if_neg hspace, htext]
  exact if_neg hmaxrem

/-- With no conversion behind the percent sign, the rest of the format is written as it is. -/
theorem writes_unsupported (h0 : 0 ∉ format)
    (hc : CString.at0 format ∉ percent :: conversions) (args : List PrintfArg) :
    Writes (percent :: format) args (percent :: format) [] args := by
  intro rounds written out hroom
  have hlen : strlen (percent :: format) = (percent :: format).length := by
    apply strlen_eq_length
    rw [List.mem_cons]
    rintro (h | h)
    · exact absurd h (by decide)
    · exact h0 h
  have hmaxrem : ¬ intMax - written < (percent :: format).length := by omega
  have hfirst : CString.at0 (percent :: format) = percent := rfl
  have hsecond : CString.at0 (List.tail (percent :: format)) = CString.at0 format := rfl
  rw [List.mem_cons, not_or] at hc
  rw [printfLoop]
  dsimp only
  rw [hfirst, hsecond, if_neg (by decide), if_neg (not_literal hc.1), if_neg hc.2, hlen,
    if_neg hmaxrem, List.drop_length, List.take_length]

end BiosKernel
