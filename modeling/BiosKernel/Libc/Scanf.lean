import BiosKernel.Lib.MachineInt
import BiosKernel.Libc.Printf

namespace BiosKernel
open MachineInt Positional
set_option autoImplicit true

/-- What an argument behind the format points to. -/
inductive ScanDst where
  | chars (s : CString)
  | int (i : Int32)
  deriving DecidableEq

inductive ScanFault where
  | endless
  | wrongArgument
  /-- a write behind the end of `dst_str` -/
  | overflow
  /-- a read before the beginning of the string -/
  | outside
  deriving DecidableEq

def isValidChar (c : UInt8) : Bool := 33 ≤ c ∧ c ≤ 126

/-- The loop of `get_next_valid_char_idx` from index `i` on. The zeros behind the string are no
valid characters, so there it ends at `size`. -/
def validCharLoop (size : Int) : CString → Nat → Option Nat
  | [], _ => none
  | c :: str, i =>
    if size ≤ i then none else if isValidChar c then some i else validCharLoop size str (i + 1)

/-- No index stands for -1. The size is compared as an `int`. -/
def getNextValidCharIdx (str : CString) (size : Nat) : Option Nat :=
  validCharLoop (int32 size) str 0

/-- The write of `dst[i]`, where `room` is the size of the buffer if the function knows it. -/
def storeChar (room : Option Nat) (dst : CString) (i : Nat) (c : UInt8) :
    Except ScanFault CString :=
  if room.all (i < ·) then .ok ((dst ++ List.replicate (i + 1 - dst.length) 0).set i c)
  else .error .overflow

/-- The loop of `get_next_valid_string`: `i`, `str` and `dst` behind it. -/
def validStringLoop (room : Option Nat) (len : Nat) :
    Nat → Nat → CString → CString → Except ScanFault (Nat × CString × CString)
  | 0, _, _, _ => .error .endless
  | rounds + 1, i, str, dst =>
    if i < len then
      match getNextValidCharIdx str len with
      | none => .ok (i, str, dst)
      | some idx => do
        let dst ← storeChar room dst i (CString.at0 (str.drop idx))
        let str : CString := str.drop (idx + 1)
        if isValidChar str.at0 then validStringLoop room len rounds ((i + 1) % 2 ^ 32) str dst
        else .ok (i, str, dst)
    else .ok (i, str, dst)

/-- The index behind the string that is taken, and `dst`. -/
def getNextValidString (room : Option Nat) (str : CString) (len : Nat) (dst : CString) :
    Except ScanFault (Int × CString) := do
  let (i, rest, dst) ← validStringLoop room len (str.length + 1) 0 str dst
  -- the rest of a token that `len` has cut off
  let rest := rest.dropWhile isValidChar
  let dst ← if i ≠ 0 ∧ 1 < len then storeChar room dst ((i + 1) % 2 ^ 32) 0 else .ok dst
  return (int32 (str.length - rest.length), dst)

/-- What `itoa` leaves in `dst_str`, which held `scratch` before. -/
def itoaScratch (scratch : CString) (num : Int64) : Except ScanFault CString :=
  match itoa64 num 10 with
  | .ok (some str) => .ok (str ++ 0 :: scratch.drop (str.length + 1))
  | .ok none => .ok scratch
  | .error _ => .error .endless

/-- The branch of a specifier: the index behind its token and the destination. No result stands for
the return of -1. -/
def scanSpecifier (specifier : UInt8) (scratch str : CString) (maxrem : Nat) :
    ScanDst → Except ScanFault (Option (Int × ScanDst))
  | .chars dst =>
    if specifier = 99 then
      if maxrem = 0 then .ok none
      else do
        let (nextIdx, dst) ← getNextValidString none str 1 dst
        return some (nextIdx, .chars dst)
    else if specifier = 115 then
      if maxrem < strlen dst then .ok none
      else do
        let (nextIdx, dst) ← getNextValidString none str (strlen str) dst
        return some (nextIdx, .chars dst)
    else .error .wrongArgument
  | .int dst =>
    if specifier = 100 then do
      let dstStr ← itoaScratch scratch dst.toInt64
      let (nextIdx, dstStr) ← getNextValidString (some bufferSize) str (strlen str) dstStr
      return some (nextIdx, .int (atoi dstStr).toInt32)
    else .error .wrongArgument

/-- The destinations at the return, the value that is returned, and the `next_idx` of each specifier
that has been scanned. -/
structure Scanned where
  dsts : List ScanDst
  value : Int
  nextIdxs : List Int
  deriving DecidableEq

def Scanned.of (done : List (ScanDst × Int)) (args : List ScanDst) (value : Int) : Scanned :=
  ⟨done.map Prod.fst ++ args, value, done.map Prod.snd⟩

/-- The specifiers that `sscanf` knows. -/
def specifiers : List UInt8 := [99, 115, 100]

/-- The loop of `sscanf_args`. `scratch` is what the stack holds at each specifier, `done` are the
specifiers that have been scanned, and `position` is how far `str` has come. -/
def sscanfLoop (scratch : Nat → CString) (str : CString) :
    Nat → CString → List ScanDst → List (ScanDst × Int) → Int → Int → Except ScanFault Scanned
  | 0, _, _, _, _, _ => .error .endless
  | rounds + 1, format, args, done, position, written =>
    let maxrem := (int32 (intMax - written) % 2 ^ 64).toNat
    if format.at0 = 0 then .ok (.of done args written)
    else if format.at0 ≠ percent ∨ CString.at0 format.tail = percent then
      let format := if format.at0 = percent then format.tail else format
      let amount := literalLength format
      if maxrem < amount then .ok (.of done args (-1))
      else sscanfLoop scratch str rounds (format.drop amount) args done position written
    else if CString.at0 format.tail ∈ specifiers then
      match args.head? with
      | none => .error .wrongArgument
      | some dst =>
        if position < 0 then .error .outside
        else do
          let scan ← scanSpecifier (CString.at0 format.tail) (scratch done.length)
            (str.drop position.toNat) maxrem dst
          match scan with
          | none => .ok (.of done args (-1))
          | some (nextIdx, dst) =>
            sscanfLoop scratch str rounds (format.drop 2) args.tail (done ++ [(dst, nextIdx)])
              (position + nextIdx) (int32 (written + if 0 < nextIdx then 1 else 0))
    else sscanfLoop scratch str rounds format.tail args done position written

def sscanf (scratch : Nat → CString) (str format : CString) (args : List ScanDst) :
    Except ScanFault Scanned :=
  sscanfLoop scratch str (format.length + 1) format args [] 0 0

end BiosKernel
