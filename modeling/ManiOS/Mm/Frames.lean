import ManiOS.Base
import Mathlib.Logic.Function.Basic

/-!
# Physical memory

`pmm.c` keeps one bit for each frame of physical memory, in words of 32 bits.
`pmm_alloc_frame` looks for the first word that is not full, from a hint on, and
takes the frame of its lowest clear bit.  The bits of frames that are not there
are set.

The functions here are called with interrupts off, so each is one step.  `none`
is a panic.
-/

namespace ManiOS.Mm

open Function (update)

def pageSize : Nat := 4096

def bitsPerWord : Nat := 32

/-- The variables of `pmm.c`. -/
structure Pmm where
  /-- `is_used`. -/
  used : Nat → Bool
  frameCount : Nat
  wordCount : Nat
  searchHint : Nat
  freeCount : Nat

namespace Pmm

/-- A word of the bitmap has no clear bit. -/
def full (m : Pmm) (w : Nat) : Bool :=
  (List.range bitsPerWord).all fun i => m.used (w * bitsPerWord + i)

/-- The first of `n` words from `w` on that is not full, or the word after them. -/
def skipFull (m : Pmm) : Nat → Nat → Nat
  | 0, w => w
  | n + 1, w => if m.full w then m.skipFull n (w + 1) else w

/-- The lowest clear bit of a word. -/
def lowestClear (m : Pmm) (w : Nat) : Option Nat :=
  (List.range bitsPerWord).find? fun i => !m.used (w * bitsPerWord + i)

/-- `pmm_alloc_frame`: the address of a frame, or 0. -/
def allocFrame (m : Pmm) : Nat × Pmm :=
  let w := m.skipFull (m.wordCount - m.searchHint) m.searchHint
  let m := { m with searchHint := w }
  if w < m.wordCount then
    match m.lowestClear w with
    | some i =>
      let frame := w * bitsPerWord + i
      (u32 (frame * pageSize),
        { m with used := update m.used frame true, freeCount := m.freeCount - 1 })
    | none => (0, m)
  else
    (0, m)

def freeFrame (phys : Nat) (m : Pmm) : Option Pmm :=
  let frame := phys / pageSize
  if phys % pageSize ≠ 0 then none
  else if m.frameCount ≤ frame then none
  else if m.used frame = false then none
  else
    some { m with
      used := update m.used frame false
      freeCount := m.freeCount + 1
      searchHint :=
        if frame / bitsPerWord < m.searchHint then frame / bitsPerWord else m.searchHint }

/-- What `pmm_init` leaves: physical memory ends below 4 GiB, and neither frame 0
nor a frame that is not there is free. -/
structure Ok (m : Pmm) : Prop where
  limit : m.frameCount ≤ 1048576
  first : m.used 0 = true
  absent : ∀ f, m.frameCount ≤ f → m.used f = true

variable {m : Pmm} {f : Nat}

theorem lowestClear_spec {w i : Nat} (h : m.lowestClear w = some i) :
    m.used (w * bitsPerWord + i) = false := by
  simpa using List.find?_some h

theorem Ok.alloc (h : m.Ok) : (m.allocFrame.1 = 0 ∧ m.allocFrame.2.used = m.used ∨
      ∃ f, f ≠ 0 ∧ f < m.frameCount ∧ m.used f = false ∧ m.allocFrame.1 = f * pageSize ∧
        m.allocFrame.2.used = update m.used f true) ∧
      m.allocFrame.2.frameCount = m.frameCount := by
  unfold allocFrame
  dsimp only
  split
  · split
    next i hi =>
      have hclear := lowestClear_spec hi
      generalize hf : skipFull m (m.wordCount - m.searchHint) m.searchHint * bitsPerWord + i = f
        at hclear
      have hlt : f < m.frameCount := by
        refine Nat.lt_of_not_le fun hle => ?_
        rw [show m.used f = true from h.absent f hle] at hclear
        cases hclear
      refine ⟨.inr ⟨f, ?_, hlt, hclear, ?_, rfl⟩, rfl⟩
      · rintro rfl
        rw [show m.used 0 = true from h.first] at hclear
        cases hclear
      · have := h.limit
        simp only [u32, pageSize]
        omega
    next => exact ⟨.inl ⟨rfl, rfl⟩, rfl⟩
  · exact ⟨.inl ⟨rfl, rfl⟩, rfl⟩

theorem Ok.of_update (h : m.Ok) {b : Bool} {m' : Pmm} (hcount : m'.frameCount = m.frameCount)
    (hused : m'.used = update m.used f b) (hf : f ≠ 0) (hlt : f < m.frameCount) : m'.Ok where
  limit := hcount ▸ h.limit
  first := by
    rw [hused, Function.update_of_ne hf.symm]
    exact h.first
  absent x hx := by
    rw [hcount] at hx
    rw [hused, Function.update_of_ne (by omega)]
    exact h.absent x hx

theorem Ok.free (h : m.Ok) (hf : f ≠ 0) (hlt : f < m.frameCount) (hused : m.used f = true) :
    ∃ m', m.freeFrame (f * pageSize) = some m' ∧ m'.used = update m.used f false ∧
      m'.frameCount = m.frameCount ∧ m'.Ok := by
  have hdiv : f * pageSize / pageSize = f := Nat.mul_div_cancel f (by decide)
  have hmod : f * pageSize % pageSize = 0 := Nat.mul_mod_left f pageSize
  obtain ⟨m', hm', hused', hcount⟩ : ∃ m', m.freeFrame (f * pageSize) = some m' ∧
      m'.used = update m.used f false ∧ m'.frameCount = m.frameCount := by
    rw [freeFrame, hdiv]
    rw [if_neg (not_not.mpr hmod), if_neg (Nat.not_le.mpr hlt), if_neg (by rw [hused]; nofun)]
    exact ⟨_, rfl, rfl, rfl⟩
  exact ⟨m', hm', hused', hcount, h.of_update hcount hused' hf hlt⟩

end Pmm

end ManiOS.Mm
