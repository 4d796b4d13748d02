import ManiOS.Base
import ManiOS.Lib.Buffer

/-!
# Names

A directory entry holds a name in eleven bytes, eight for the base and three
for the extension, padded with blanks.  A name that does not fit is kept under
the alias its base shortens to, with `~N` at the end.

A C string is the list of its bytes, without the NUL.
-/

namespace ManiOS.Fat

open ManiOS.Lib

abbrev CStr := List UInt8

def lowerChar (c : UInt8) : UInt8 := if 65 ≤ c ∧ c ≤ 90 then c + 32 else c

def upperChar (c : UInt8) : UInt8 := if 97 ≤ c ∧ c ≤ 122 then c - 32 else c

/-- The bytes of `e` from `i` on, `n` at most, up to the first blank. -/
def untilBlank (e : Buf) (i n : Nat) : List UInt8 :=
  ((List.range n).map fun k => e (i + k)).takeWhile (· ≠ 32)

/-- `short_name`: `"README  TXT"` is `"readme.txt"`.  What the caller sees is a
C string, so a NUL in the entry ends it. -/
def shortName (e : Buf) : CStr :=
  let base := untilBlank (fun i => if i = 0 ∧ e 0 = 0x05 then 0xE5 else e i) 0 8
  let ext := if e 8 ≠ 32 then 46 :: (untilBlank e 8 3).map lowerChar else []
  (base.map lowerChar ++ ext).takeWhile (· ≠ 0)

def namesEqualNocase : CStr → CStr → Bool
  | [], [] => true
  | a :: as, b :: bs => lowerChar a == lowerChar b && namesEqualNocase as bs
  | _, _ => false

/-- `name11_equal`: the eleven name bytes of two entries, case ignored. -/
def name11Equal (a b : Buf) : Bool :=
  (List.range 11).all fun i => upperChar (a i) == upperChar (b i)

/-- The characters besides letters and digits that an entry may hold:
``$%'-_@~!#&()^`{}``. -/
def allowedChars : List UInt8 :=
  [36, 37, 39, 45, 95, 64, 126, 33, 35, 38, 40, 41, 94, 96, 123, 125]

/-- `name_char`: what an entry says for a character. -/
def nameChar (c : UInt8) : UInt8 :=
  let c := upperChar c
  if (65 ≤ c ∧ c ≤ 90) ∨ (48 ≤ c ∧ c ≤ 57) ∨ c ∈ allowedChars then c else 95

def pack11 (base ext : List UInt8) : Buf := fun i =>
  if i < 8 then base.getD i 32 else ext.getD (i - 8) 32

/-- `struct fat_name`: a base and an extension an entry may hold. -/
structure FatName where
  base : List UInt8
  ext : List UInt8
deriving DecidableEq, Repr

/-- The position of the last dot, unless that is the first character. -/
def lastDot (name : CStr) : Option Nat :=
  ((List.range name.length).filter fun i => i ≠ 0 ∧ name.getD i 0 = 46).getLast?

def splitName (name : CStr) : Except Errno FatName :=
  let (base, ext) := match lastDot name with
    | some dot => (name.take dot, (name.drop (dot + 1)).take 3)
    | none => (name, [])
  if base = [] then .error .einval else .ok ⟨base.map nameChar, ext.map nameChar⟩

/-- The decimal digits of a number below 1000. -/
def decimal (n : Nat) : List UInt8 :=
  (if n ≥ 100 then [UInt8.ofNat (48 + n / 100)] else []) ++
    (if n ≥ 10 then [UInt8.ofNat (48 + n / 10 % 10)] else []) ++ [UInt8.ofNat (48 + n % 10)]

/-- `alias11`: the eleven bytes of alias `n` of a name. -/
def alias11 (f : FatName) (n : Nat) : Buf :=
  let digits := if n < 10 then 1 else if n < 100 then 2 else 3
  pack11 (f.base.take (8 - 1 - digits) ++ 126 :: decimal n) f.ext

def FatName.fits (f : FatName) : Bool := decide (f.base.length ≤ 8 ∧ f.ext.length ≤ 3)

/-- `name11_of`: the one entry a name of ours can live in. -/
def name11Of (name : CStr) : Except Errno Buf := do
  let f ← splitName name
  if f.fits then pure (pack11 f.base f.ext) else pure (alias11 f 1)

end ManiOS.Fat
