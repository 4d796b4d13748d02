import ManiOS.Mm.Frames
import Mathlib.Algebra.Group.Nat.Defs

/-!
# Physical memory and page table entries

Physical memory is bytes, by frame and offset.  Page directories and page tables
are frames like others: an entry is a little-endian word of 32 bits, and it maps a
page if its lowest bit is set.  The bits that the processor sets itself (accessed,
dirty) are left out.
-/

namespace ManiOS.Mm

/-- The bytes of physical memory, by frame and offset. -/
abbrev Ram := Nat → Nat → UInt8

/-- An entry that is present: the frame, `PTE_WRITABLE`, `PTE_USER`, and whether the
page is not cached (`PTE_PCD` and `PTE_PWT`). -/
structure Entry where
  frame : Nat
  writable : Bool
  user : Bool
  uncached : Bool
deriving DecidableEq, Repr

namespace Entry

/-- The word of an entry.  One that is not present is 0. -/
def encode : Option Entry → Nat
  | none => 0
  | some e =>
    e.frame * pageSize + 1 + e.writable.toNat * 2 + e.user.toNat * 4 + e.uncached.toNat * 24

/-- The entry of a word. -/
def decode (w : Nat) : Option Entry :=
  if w % 2 = 0 then none
  else some ⟨w / pageSize, w / 2 % 2 == 1, w / 4 % 2 == 1, w / 16 % 2 == 1⟩

def Fits (x : Option Entry) : Prop := ∀ e ∈ x, e.frame < 1048576

theorem fits_none : Fits none := fun _ h => nomatch h

theorem fits_some {e : Entry} (h : e.frame < 1048576) : Fits (some e) := by
  intro e' he'
  cases he'
  exact h

theorem encode_lt {x : Option Entry} (h : Fits x) : encode x < 4294967296 := by
  cases x with
  | none => decide
  | some e =>
    have hf := h e rfl
    have hw := e.writable.toNat_le
    have hu := e.user.toNat_le
    have hc := e.uncached.toNat_le
    simp only [encode, pageSize]
    omega

theorem bits {f w u c : Nat} (hw : w ≤ 1) (hu : u ≤ 1) (hc : c ≤ 1) :
    let n := f * 4096 + 1 + w * 2 + u * 4 + c * 24
    n % 2 ≠ 0 ∧ n / 4096 = f ∧ n / 2 % 2 = w ∧ n / 4 % 2 = u ∧ n / 16 % 2 = c := by
  rcases Nat.le_one_iff_eq_zero_or_eq_one.mp hc with rfl | rfl <;> dsimp only <;> omega

theorem decode_encode (x : Option Entry) : decode (encode x) = x := by
  cases x with
  | none => rfl
  | some e =>
    obtain ⟨f, w, u, c⟩ := e
    have hbit : ∀ b : Bool, (b.toNat == 1) = b := by decide
    obtain ⟨hodd, hf, hw, hu, hc⟩ := bits (f := f) w.toNat_le u.toNat_le c.toNat_le
    rw [encode, decode, pageSize, if_neg hodd, hf, hw, hu, hc, hbit, hbit, hbit]

end Entry

namespace Ram

variable {r : Ram} {f g i j o : Nat} {x : Option Entry}

def word (r : Ram) (f i : Nat) : Nat :=
  (r f (4 * i)).toNat + 256 * (r f (4 * i + 1)).toNat + 65536 * (r f (4 * i + 2)).toNat +
    16777216 * (r f (4 * i + 3)).toNat

def setWord (r : Ram) (f i w : Nat) : Ram := fun g o =>
  if g = f ∧ o / 4 = i then UInt8.ofNat (w / 256 ^ (o % 4)) else r g o

def entry (r : Ram) (f i : Nat) : Option Entry := Entry.decode (r.word f i)

def setEntry (r : Ram) (f i : Nat) (x : Option Entry) : Ram := r.setWord f i (Entry.encode x)

def zero (r : Ram) (f : Nat) : Ram := fun g o => if g = f then 0 else r g o

def setByte (r : Ram) (f o : Nat) (b : UInt8) : Ram := fun g o' =>
  if g = f ∧ o' = o then b else r g o'

variable {w : Nat}

theorem word_setWord_self (hw : w < 4294967296) : (r.setWord f i w).word f i = w := by
  have hbyte : ∀ k < 4, r.setWord f i w f (4 * i + k) = .ofNat (w / 256 ^ k) := by
    intro k hk
    rw [setWord, if_pos ⟨rfl, by omega⟩, show (4 * i + k) % 4 = k by omega]
  have h0 := hbyte 0 (by decide)
  rw [Nat.add_zero] at h0
  rw [word, h0, hbyte 1 (by decide), hbyte 2 (by decide), hbyte 3 (by decide)]
  simp only [UInt8.toNat_ofNat', Nat.pow_zero, Nat.pow_one]
  omega

theorem setWord_of_ne_frame (h : g ≠ f) : r.setWord f i w g = r g :=
  funext fun _ => if_neg fun hc => h hc.1

theorem word_setWord_of_ne (h : j ≠ i) : (r.setWord f i w).word f j = r.word f j := by
  have hbyte : ∀ k < 4, r.setWord f i w f (4 * j + k) = r f (4 * j + k) := fun k hk =>
    if_neg fun hc => by omega
  have h0 := hbyte 0 (by decide)
  rw [Nat.add_zero] at h0
  rw [word, word, h0, hbyte 1 (by decide), hbyte 2 (by decide), hbyte 3 (by decide)]

theorem entry_congr {r' : Ram} (h : r' f = r f) : r'.entry f = r.entry f := by
  funext i
  rw [entry, entry, word, word, h]

theorem setEntry_of_ne_frame (h : g ≠ f) : r.setEntry f i x g = r g := setWord_of_ne_frame h

theorem entry_setEntry (hx : Entry.Fits x) (g j : Nat) :
    (r.setEntry f i x).entry g j = if g = f ∧ j = i then x else r.entry g j := by
  by_cases hg : g = f
  · subst hg
    by_cases hj : j = i
    · subst hj
      rw [if_pos ⟨rfl, rfl⟩, entry, setEntry, word_setWord_self (Entry.encode_lt hx),
        Entry.decode_encode]
    · rw [if_neg fun hc => hj hc.2, entry, setEntry, word_setWord_of_ne hj, entry]
  · rw [if_neg fun hc => hg hc.1, entry_congr (setEntry_of_ne_frame hg)]

theorem entry_fits (r : Ram) (f i : Nat) : Entry.Fits (r.entry f i) := by
  intro e he
  rw [entry, Entry.decode] at he
  split at he
  · cases he
  · cases he
    have h0 := (r f (4 * i)).toNat_lt
    have h1 := (r f (4 * i + 1)).toNat_lt
    have h2 := (r f (4 * i + 2)).toNat_lt
    have h3 := (r f (4 * i + 3)).toNat_lt
    simp only [word, pageSize]
    omega

theorem zero_of_ne (h : g ≠ f) : r.zero f g = r g := funext fun _ => if_neg h

theorem entry_zero (g j : Nat) : (r.zero f).entry g j = if g = f then none else r.entry g j := by
  split
  next h =>
    have hzero : ∀ o, r.zero f f o = 0 := fun _ => if_pos rfl
    rw [h, entry, word, hzero, hzero, hzero, hzero]
    rfl
  next h => rw [entry_congr (zero_of_ne h)]

theorem setByte_of_ne {b : UInt8} (h : g ≠ f) : r.setByte f o b g = r g :=
  funext fun _ => if_neg fun hc => h hc.1

end Ram

end ManiOS.Mm
