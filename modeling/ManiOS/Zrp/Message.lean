import ManiOS.Base
import ManiOS.Lib.Buffer

/-!
# Messages of ZRP

A message is its size in four bytes, its type in one, its tag in two, and a
body, all little-endian.  `Zmsg` is the cursor with which `zrp_msg.c` reads a
buffer: an access that does not fit marks the message as bad, and a reader looks
at the mark once, at the end.

`pos` never passes `cap` in the code, so `cap - pos` is a difference of
natural numbers.
-/

namespace ManiOS.Zrp

open Lib

/-! ## Constants of `zrp.h` -/

/-- `enum zrp_type`. -/
inductive MsgType where
  | tversion | rversion | tattach | rattach | twalk | rwalk | tread | rread | twrite | rwrite
  | tclunk | rclunk | tstat | rstat | tauth | rauth | rerror | rpending
deriving DecidableEq, Repr

/-- The number of a type on the wire. -/
def MsgType.code : MsgType → UInt8
  | .tversion => 1
  | .rversion => 2
  | .tattach => 3
  | .rattach => 4
  | .twalk => 5
  | .rwalk => 6
  | .tread => 7
  | .rread => 8
  | .twrite => 9
  | .rwrite => 10
  | .tclunk => 11
  | .rclunk => 12
  | .tstat => 13
  | .rstat => 14
  | .tauth => 15
  | .rauth => 16
  | .rerror => 64
  | .rpending => 65

/-- `ZRP_MSIZE`. -/
def msizeMax : Nat := 1472

def header : Nat := 7

def notag : Nat := 0xFFFF

def errnoMax : Nat := 4095

/-! ## The cursor -/

/-- `struct zmsg`. -/
structure Zmsg where
  buf : Buf
  cap : Nat
  pos : Nat
  bad : Bool

/-- A list of bytes as a buffer shows it. -/
def ofBytes (l : List UInt8) : Buf := fun i => l.getD i 0

namespace Zmsg

/-- `room`: the offset of the next `n` bytes. -/
def room (m : Zmsg) (n : Nat) : Option Nat × Zmsg :=
  if m.bad ∨ n > m.cap - m.pos then (none, { m with bad := true })
  else (some m.pos, { m with pos := m.pos + n })

def get16 (m : Zmsg) : Nat × Zmsg :=
  match m.room 2 with
  | (some p, m) => (le16 (shift m.buf p), m)
  | (none, m) => (0, m)

end Zmsg

end ManiOS.Zrp
