import Mathlib.Data.Nat.Notation

/-!
# Error numbers, vnode types and machine words

The kernel returns an error as its negated number.  A function that may fail
is modelled by `Except`, so only the number is left.

The machine is an i386: `uint32_t`, `size_t` and `long` have 32 bits.
-/

namespace ManiOS

/-- The error numbers of `zkt_abi.h` that the modelled code returns. -/
inductive Errno where
  | eperm | enoent | eio | ebadf | enomem | eacces | ebusy | eexist | enotdir | eisdir
  | einval | emfile | enospc | erofs | enametoolong | enosys | enotempty | eproto
  | echild | etimedout | efault | enoexec | enxio
deriving DecidableEq, Repr

/-- The number of an error. -/
def Errno.code : Errno → Nat
  | .eperm => 1
  | .enoent => 2
  | .eio => 5
  | .ebadf => 9
  | .enomem => 12
  | .eacces => 13
  | .ebusy => 16
  | .eexist => 17
  | .enotdir => 20
  | .eisdir => 21
  | .einval => 22
  | .emfile => 24
  | .enospc => 28
  | .erofs => 30
  | .enametoolong => 36
  | .enosys => 38
  | .enotempty => 39
  | .eproto => 71
  | .echild => 10
  | .etimedout => 110
  | .efault => 14
  | .enoexec => 8
  | .enxio => 6

/-- An error as a C function returns it. -/
def Errno.negated (e : Errno) : Int := -(e.code : Int)

theorem Errno.negated_neg (e : Errno) : e.negated < 0 := by
  cases e <;> decide

/-- `enum vnode_type`. -/
inductive VnodeType where
  | dir | file | device | pipe
deriving DecidableEq, Repr

/-- `struct dirent`: a name, without its NUL, and what it names. -/
structure Dirent where
  name : List UInt8
  type : VnodeType
  size : Nat
deriving DecidableEq, Repr

/-- A number kept in a `uint32_t`. -/
def u32 (x : Nat) : Nat := x % 4294967296

theorem u32_of_lt {x : Nat} (h : x < 4294967296) : u32 x = x := Nat.mod_eq_of_lt h

/-- A `uint32_t` read as a `long`, both of 32 bits. -/
def toLong (x : Nat) : Int := if x < 2147483648 then x else (x : Int) - 4294967296

theorem toLong_of_lt {x : Nat} (h : x < 2147483648) : toLong x = x := if_pos h

end ManiOS
