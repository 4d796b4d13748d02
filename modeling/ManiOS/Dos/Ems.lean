import Mathlib.Algebra.GroupWithZero.Nat
import Mathlib.Data.Fin.Basic
import ManiOS.Dos.Arena
import ManiOS.Lib.Runs

/-!
# Expanded memory

Expanded memory is seen through a frame of four pages of 16 KiB in the guest's memory.
To map a page of a handle into the frame, the page that is there is copied back to the
pool and the new one copied in.

The pages of a handle have no fixed place.  They begin behind the pages of all handles
with lower numbers.  If such a handle gets pages or loses them, the pages of the handles
above it are looked for at another place, and their contents stay at the old one.
-/

namespace ManiOS.Dos

open Function (update update_self update_of_ne)
open List

def emsHandles : Nat := 32

/-- `EMS_BYTES / EMS_PAGE`. -/
def emsPages : Nat := 256

def emsPage : Nat := 16384

abbrev Page := Fin emsPage → UInt8

/-- The variables of the driver.  `map` is `ems_map_h` and `ems_map_p`. -/
structure Ems where
  mem : Mem
  ems : Nat → UInt8
  pagesOf : Nat → Nat
  map : Fin 4 → Option (Nat × Nat)

namespace Ems

variable (phys : Fin 4)

/-- Where a page of the frame begins, at E000h:0. -/
def frameAt : Nat := 0xE0000 + phys * emsPage

/-- What a page of the frame shows. -/
def window (mem : Mem) : Page := fun k => mem (frameAt phys + k)

def pageAt (n : Nat) (ems : Nat → UInt8) : Page := fun k => ems (n * emsPage + k)

/-- The number of pages of the handles below `h`. -/
def below (pagesOf : Nat → Nat) (h : Nat) : Nat := ((List.range h).map pagesOf).sum

def place (pagesOf : Nat → Nat) (q : Nat × Nat) : Nat := below pagesOf q.1 + q.2

/-! ## The services -/

/-- `AH=43h`: the error in `AH`, `DX` and the driver afterwards. -/
def allocate (bx : Nat) (e : Ems) : (Nat × Option Nat) × Ems :=
  let want := u16 bx
  if want = 0 ∨ emsPages < below e.pagesOf emsHandles + want then ((0x88, none), e)
  else
    match (List.range emsHandles).find? fun i => e.pagesOf i = 0 with
    | none => ((0x85, none), e)
    | some i => ((0, some i), { e with pagesOf := update e.pagesOf i want })

/-- The frame's page goes back to where it came from. -/
def copyBack (e : Ems) : Ems :=
  match e.map phys with
  | none => e
  | some q =>
    let back := place e.pagesOf q * emsPage
    { e with ems := fun a =>
        if back ≤ a ∧ a < back + emsPage then e.mem (frameAt phys + (a - back)) else e.ems a }

/-- A page of the pool is shown in the frame. -/
def copyIn (q : Nat × Nat) (e : Ems) : Ems :=
  let src := place e.pagesOf q * emsPage
  { e with
    mem := fun a =>
      if frameAt phys ≤ a ∧ a < frameAt phys + emsPage then e.ems (src + (a - frameAt phys))
      else e.mem a
    map := update e.map phys (some q) }

/-- `AH=44h`, with the physical page, the logical page and the handle. -/
def mapPage (al bx dx : Nat) (e : Ems) : Nat × Ems :=
  if h : dx < emsHandles ∧ e.pagesOf dx ≠ 0 ∧ bx < e.pagesOf dx ∧ al < 4 then
    (0, copyIn ⟨al, h.2.2.2⟩ (dx, bx) (copyBack ⟨al, h.2.2.2⟩ e))
  else (0x8A, e)

/-- `AH=45h`. -/
def free (dx : Nat) (e : Ems) : Nat × Ems :=
  if dx < emsHandles ∧ e.pagesOf dx ≠ 0 then
    (0, { e with
      pagesOf := update e.pagesOf dx 0
      map := fun i => (e.map i).filter fun q => q.1 ≠ dx })
  else (0x83, e)

inductive Call where
  | allocate (bx : Nat)
  | map (al bx dx : Nat)
  | free (dx : Nat)
  | poke (a : Nat) (v : UInt8)

def run (e : Ems) : Call → Ems
  | .allocate bx => (e.allocate bx).2
  | .map al bx dx => (e.mapPage al bx dx).2
  | .free dx => (e.free dx).2
  | .poke a v => { e with mem := update e.mem a v }

/-! ## What a page should show -/

/-- The driver, and for each page what the frame showed last while the page was in it. -/
structure Seen where
  sys : Ems
  last : Nat × Nat → Option Page

/-- What was shown last, after a call.  A handle without pages has nothing to show. -/
def record (e : Ems) (last : Nat × Nat → Option Page) (q : Nat × Nat) : Option Page :=
  match (List.finRange 4).find? fun i => e.map i = some q with
  | some i => some (window i e.mem)
  | none => if e.pagesOf q.1 = 0 then none else last q

def Seen.next (s : Seen) (c : Call) : Seen := ⟨s.sys.run c, record (s.sys.run c) s.last⟩

def Start (s : Seen) : Prop :=
  (∀ h, s.sys.pagesOf h = 0) ∧ (∀ i, s.sys.map i = none) ∧ ∀ q, s.last q = none

/-- No page is in the frame twice. -/
def Once (s : Seen) : Call → Prop
  | .map al bx dx => al < 4 → ∀ i : Fin 4, s.sys.map i = some (dx, bx) → i.val = al
  | _ => True

/-- A handle gets or loses pages only while no handle above it has shown any. -/
def KeepsPlaces (s : Seen) : Call → Prop
  | .allocate bx => ∀ i, (s.sys.allocate bx).1.2 = some i → ∀ h, i < h → ∀ p, s.last (h, p) = none
  | .free dx => (s.sys.free dx).1 = 0 → ∀ h, dx < h → ∀ p, s.last (h, p) = none
  | _ => True

def CallStep (c : Call) (s s' : Seen) : Prop := Once s c ∧ KeepsPlaces s c ∧ s' = s.next c

/-- What holds in a run. -/
structure Inv (s : Seen) : Prop where
  once : ∀ i j q, s.sys.map i = some q → s.sys.map j = some q → i = j
  frame : ∀ i q, s.sys.map i = some q → s.last q = some (window i s.sys.mem)
  known : ∀ q c, s.last q = some c → q.2 < s.sys.pagesOf q.1
  stored : ∀ q c, s.last q = some c → (∀ i, s.sys.map i ≠ some q) →
    pageAt (place s.sys.pagesOf q) s.sys.ems = c

variable {s : Seen} {e : Ems} {last : Nat × Nat → Option Page} {q : Nat × Nat}

/-! ## Copies -/

theorem frame_apart {i j : Fin 4} {k : Nat} (hk : k < emsPage) :
    frameAt j ≤ frameAt i + k ∧ frameAt i + k < frameAt j + emsPage ↔ i = j := by
  rw [frameAt, frameAt]
  simp only [emsPage] at *
  omega

theorem page_apart {n m k : Nat} (hk : k < emsPage) :
    m * emsPage ≤ n * emsPage + k ∧ n * emsPage + k < m * emsPage + emsPage ↔ n = m := by
  simp only [emsPage] at *
  omega

theorem window_copyIn (phys i : Fin 4) (q : Nat × Nat) (e : Ems) : window i (copyIn phys q e).mem =
      if i = phys then pageAt (place e.pagesOf q) e.ems else window i e.mem := by
  funext k
  by_cases hi : i = phys
  · rw [if_pos hi]
    refine (if_pos ((frame_apart k.isLt).mpr hi)).trans (congrArg e.ems ?_)
    rw [hi]
    omega
  · rw [if_neg hi]
    exact if_neg fun hin => hi ((frame_apart k.isLt).mp hin)

theorem pageAt_copyBack {phys : Fin 4} {q0 : Nat × Nat} (h : e.map phys = some q0)
    (n : Nat) : pageAt n (copyBack phys e).ems =
      if n = place e.pagesOf q0 then window phys e.mem else pageAt n e.ems := by
  funext k
  rw [copyBack, h]
  by_cases hn : n = place e.pagesOf q0
  · rw [if_pos hn]
    refine (if_pos ((page_apart k.isLt).mpr hn)).trans (congrArg e.mem ?_)
    rw [hn]
    omega
  · rw [if_neg hn]
    exact if_neg fun hin => hn ((page_apart k.isLt).mp hin)

/-! ## Places -/

theorem below_succ (f : Nat → Nat) (h : Nat) : below f (h + 1) = below f h + f h := by
  rw [below, range_succ, map_append, sum_append, map_singleton, sum_singleton, below]

theorem below_le (f : Nat → Nat) {h k : Nat} (hk : h < k) : below f h + f h ≤ below f k := by
  induction k with
  | zero => exact absurd hk (Nat.not_lt_zero _)
  | succ k ih =>
    rw [below_succ]
    rcases Nat.lt_succ_iff_lt_or_eq.mp hk with hlt | rfl
    · exact le_trans (ih hlt) (Nat.le_add_right _ _)
    · exact le_rfl

theorem below_congr {f g : Nat → Nat} {h : Nat} (hfg : ∀ i < h, f i = g i) :
    below f h = below g h := by
  rw [below]
  congr 1
  exact map_congr_left fun i hi => hfg i (mem_range.mp hi)

theorem place_inj {f : Nat → Nat} {q' : Nat × Nat} (hq : q.2 < f q.1) (hq' : q'.2 < f q'.1)
    (h : place f q = place f q') : q = q' := by
  rw [place, place] at h
  have hfst : q.1 = q'.1 := by
    rcases Nat.lt_trichotomy q.1 q'.1 with hlt | heq | hlt
    · have := below_le f hlt
      omega
    · exact heq
    · have := below_le f hlt
      omega
  rw [hfst] at h
  exact Prod.ext hfst (by omega)

/-! ## Records -/

theorem find_phys {j : Fin 4} (h : (finRange 4).find? (fun i => e.map i = some q) = some j) :
    e.map j = some q := by
  have hj := find?_some h
  exact of_decide_eq_true hj

theorem record_mapped {i : Fin 4} (honce : ∀ i j q, e.map i = some q → e.map j = some q → i = j)
    (hi : e.map i = some q) : record e last q = some (window i e.mem) := by
  rw [record]
  cases hf : (finRange 4).find? fun i => e.map i = some q with
  | none => exact absurd (decide_eq_true hi) (find?_eq_none.mp hf i (mem_finRange i))
  | some j => rw [honce i j q hi (find_phys hf)]

theorem record_unmapped (h : ∀ i, e.map i ≠ some q) :
    record e last q = if e.pagesOf q.1 = 0 then none else last q := by
  rw [record]
  cases hf : (finRange 4).find? fun i => e.map i = some q with
  | none => rfl
  | some j => exact absurd (find_phys hf) (h j)

/-! ## Runs -/

theorem Start.inv (h : Start s) : Inv s := by
  obtain ⟨-, hmap, hlast⟩ := h
  refine ⟨fun i j q hi => ?_, fun i q hi => ?_, fun q c hq => ?_, fun q c hq => ?_⟩
  · rw [hmap i] at hi
    cases hi
  · rw [hmap i] at hi
    cases hi
  · rw [hlast q] at hq
    cases hq
  · rw [hlast q] at hq
    cases hq

variable (h : Inv s)
include h

/-- What is left to show after a call that keeps the places of all pages that were shown. -/
theorem Inv.next (honce : ∀ i j q, e.map i = some q → e.map j = some q → i = j)
    (hlive : ∀ i q, e.map i = some q → q.2 < e.pagesOf q.1)
    (hpages : ∀ q c, s.last q = some c → e.pagesOf q.1 ≠ 0 → e.pagesOf q.1 = s.sys.pagesOf q.1)
    (hstored : ∀ q c, s.last q = some c → e.pagesOf q.1 ≠ 0 → (∀ i, e.map i ≠ some q) →
      pageAt (place e.pagesOf q) e.ems = c) : Inv ⟨e, record e s.last⟩ := by
  refine ⟨honce, fun i q hi => record_mapped honce hi, fun q c hq => ?_, fun q c hq hun => ?_⟩
  · by_cases hmap : ∃ i, e.map i = some q
    · obtain ⟨i, hi⟩ := hmap
      exact hlive i q hi
    · dsimp only at hq ⊢
      rw [record_unmapped fun i hi => hmap ⟨i, hi⟩] at hq
      split at hq
      next => cases hq
      next hne =>
        rw [hpages q c hq hne]
        exact h.known q c hq
  · dsimp only at hq hun ⊢
    rw [record_unmapped hun] at hq
    split at hq
    next => cases hq
    next hne => exact hstored q c hq hne hun

theorem Inv.live {i : Fin 4} (hi : s.sys.map i = some q) : q.2 < s.sys.pagesOf q.1 :=
  h.known q _ (h.frame i q hi)

theorem Inv.poke (a : Nat) (v : UInt8) : Inv (s.next (.poke a v)) :=
  h.next h.once (fun _ _ hi => h.live hi) (fun _ _ _ _ => rfl) fun q c hq _ hun =>
    h.stored q c hq hun

/-- A handle has other pages than before, and no page of a handle above it was shown. -/
theorem Inv.setPages {h₀ n : Nat} {map : Fin 4 → Option (Nat × Nat)}
    (habove : ∀ k, h₀ < k → ∀ p, s.last (k, p) = none)
    (hmap : ∀ i q, map i = some q ↔ s.sys.map i = some q ∧ q.1 ≠ h₀)
    (hn : n = 0 ∨ ∀ p, s.last (h₀, p) = none) :
    Inv ⟨{ s.sys with pagesOf := update s.sys.pagesOf h₀ n, map },
      record { s.sys with pagesOf := update s.sys.pagesOf h₀ n, map } s.last⟩ := by
  have hother : ∀ {k : Nat}, k ≠ h₀ → update s.sys.pagesOf h₀ n k = s.sys.pagesOf k :=
    fun hk => update_of_ne hk ..
  have hne : ∀ q c, s.last q = some c → update s.sys.pagesOf h₀ n q.1 ≠ 0 → q.1 < h₀ := by
    intro q c hq hpos
    rcases Nat.lt_trichotomy q.1 h₀ with hlt | heq | hlt
    · exact hlt
    · rw [heq, update_self] at hpos
      rcases hn with hn | hn
      · exact absurd hn hpos
      · have := hn q.2
        rw [← heq, hq] at this
        cases this
    · have := habove q.1 hlt q.2
      rw [hq] at this
      cases this
  refine h.next (fun i j q hi hj => ?_) (fun i q hi => ?_) (fun q c hq hpos => ?_)
    fun q c hq hpos hun => ?_
  · exact h.once i j q ((hmap i q).mp hi).1 ((hmap j q).mp hj).1
  · obtain ⟨hi, hq⟩ := (hmap i q).mp hi
    dsimp only
    rw [hother hq]
    exact h.live hi
  · exact hother (ne_of_lt (hne q c hq hpos))
  · have hlt := hne q c hq hpos
    have hplace : place (update s.sys.pagesOf h₀ n) q = place s.sys.pagesOf q := by
      rw [place, place, below_congr fun i hi => hother (ne_of_lt (lt_trans hi hlt))]
    rw [hplace]
    refine h.stored q c hq fun i hi => hun i ?_
    exact (hmap i q).mpr ⟨hi, ne_of_lt hlt⟩

theorem Inv.allocate {bx : Nat} (hk : KeepsPlaces s (.allocate bx)) :
    Inv (s.next (.allocate bx)) := by
  have hsame : Inv ⟨s.sys, record s.sys s.last⟩ :=
    h.next h.once (fun _ _ hi => h.live hi) (fun _ _ _ _ => rfl) fun q c hq _ hun =>
      h.stored q c hq hun
  rw [KeepsPlaces, Ems.allocate] at hk
  rw [Seen.next, run, Ems.allocate]
  split at hk
  next hfull =>
    rw [if_pos hfull]
    exact hsame
  next hfit =>
    rw [if_neg hfit]
    cases hf : (range emsHandles).find? fun i => s.sys.pagesOf i = 0 with
    | none => exact hsame
    | some i =>
      rw [hf] at hk
      have hzero := find?_some hf
      have hpages : s.sys.pagesOf i = 0 := of_decide_eq_true hzero
      have hnone : ∀ p, s.last (i, p) = none := by
        intro p
        by_contra hne
        obtain ⟨c, hc⟩ := Option.ne_none_iff_exists'.mp hne
        have := h.known (i, p) c hc
        dsimp only at this
        omega
      refine h.setPages (hk i rfl) (fun j q => ?_) (.inr hnone)
      refine ⟨fun hj => ⟨hj, fun hq => ?_⟩, fun hj => hj.1⟩
      have := h.live hj
      rw [hq, hpages] at this
      exact absurd this (Nat.not_lt_zero _)

theorem Inv.free {dx : Nat} (hk : KeepsPlaces s (.free dx)) : Inv (s.next (.free dx)) := by
  rw [KeepsPlaces, Ems.free] at hk
  rw [Seen.next, run, Ems.free]
  split at hk
  next hok =>
    rw [if_pos hok]
    refine h.setPages (hk rfl) (fun i q => ?_) (.inl rfl)
    rw [Option.filter_eq_some_iff, decide_eq_true_iff]
  next hbad =>
    rw [if_neg hbad]
    exact h.next h.once (fun _ _ hi => h.live hi) (fun _ _ _ _ => rfl) fun q c hq _ hun =>
      h.stored q c hq hun

omit h

theorem copyBack_same (e : Ems) :
    (copyBack phys e).mem = e.mem ∧ (copyBack phys e).pagesOf = e.pagesOf ∧
      (copyBack phys e).map = e.map := by
  rw [copyBack]
  split <;> exact ⟨rfl, rfl, rfl⟩

/-- After the frame's page was copied back, the pool has what was shown of each page that
is in no other page of the frame. -/
theorem Inv.back (h : Inv s) {phys : Fin 4} {c : Page} (hq : s.last q = some c)
    (hun : ∀ i, s.sys.map i = some q → i = phys) :
    pageAt (place s.sys.pagesOf q) (copyBack phys s.sys).ems = c := by
  cases hphys : s.sys.map phys with
  | none =>
    rw [copyBack, hphys]
    refine h.stored q c hq fun i hi => ?_
    rw [hun i hi, hphys] at hi
    cases hi
  | some q0 =>
    rw [pageAt_copyBack hphys]
    by_cases heq : q = q0
    · have hshown := h.frame phys q0 hphys
      rw [← heq, hq] at hshown
      rw [if_pos (by rw [heq])]
      exact (Option.some.inj hshown).symm
    · rw [if_neg fun hp => heq (place_inj (h.known q c hq) (h.live hphys) hp)]
      refine h.stored q c hq fun i hi => ?_
      rw [hun i hi, hphys] at hi
      exact heq (Option.some.inj hi).symm

theorem Inv.mapPage (h : Inv s) {al bx dx : Nat} (ho : Once s (.map al bx dx)) :
    Inv (s.next (.map al bx dx)) := by
  rw [Seen.next, run, Ems.mapPage]
  split
  next hok =>
    obtain ⟨-, -, hbx, hal⟩ := hok
    obtain ⟨hmem, hpages, hmap⟩ := copyBack_same ⟨al, hal⟩ s.sys
    have hnew : ∀ i, (copyIn ⟨al, hal⟩ (dx, bx) (copyBack ⟨al, hal⟩ s.sys)).map i =
        update s.sys.map ⟨al, hal⟩ (some (dx, bx)) i := fun i => by rw [copyIn, hmap]
    have hsame : (copyIn ⟨al, hal⟩ (dx, bx) (copyBack ⟨al, hal⟩ s.sys)).pagesOf =
        s.sys.pagesOf := hpages
    have hwas : ∀ {i : Fin 4}, i ≠ ⟨al, hal⟩ → s.sys.map i ≠ some (dx, bx) :=
      fun hi heq => hi (Fin.ext (ho hal _ heq))
    refine h.next (fun i j q hi hj => ?_) (fun i q hi => ?_) (fun q c _ _ => by rw [hsame])
      fun q c hq _ hun => ?_
    · rw [hnew] at hi hj
      by_cases hi' : i = ⟨al, hal⟩ <;> by_cases hj' : j = ⟨al, hal⟩
      · rw [hi', hj']
      · rw [hi', update_self] at hi
        rw [update_of_ne hj', ← hi] at hj
        exact absurd hj (hwas hj')
      · rw [hj', update_self] at hj
        rw [update_of_ne hi', ← hj] at hi
        exact absurd hi (hwas hi')
      · rw [update_of_ne hi'] at hi
        rw [update_of_ne hj'] at hj
        exact h.once i j q hi hj
    · rw [hsame]
      rw [hnew] at hi
      by_cases hi' : i = ⟨al, hal⟩
      · rw [hi', update_self] at hi
        cases hi
        exact hbx
      · rw [update_of_ne hi'] at hi
        exact h.live hi
    · rw [hsame]
      refine h.back hq fun i hi => ?_
      by_contra hne
      refine hun i ?_
      rw [hnew, update_of_ne hne]
      exact hi
  next =>
    exact h.next h.once (fun _ _ hi => h.live hi) (fun _ _ _ _ => rfl) fun q c hq _ hun =>
      h.stored q c hq hun

/-- In every run in which pages keep their places, a page that is mapped shows what it
showed last. -/
theorem ems_run {s₀ : Seen} (h₀ : Start s₀) (h : Lib.Reached CallStep s₀ s) {al bx dx : Nat}
    (ho : Once s (.map al bx dx)) (hdx : dx < emsHandles) (hbx : bx < s.sys.pagesOf dx)
    (hal : al < 4) {c : Page} (hc : s.last (dx, bx) = some c) : (s.sys.mapPage al bx dx).1 = 0 ∧
      window ⟨al, hal⟩ (s.sys.mapPage al bx dx).2.mem = c := by
  have hinv : Inv s := by
    refine h.invariant h₀.inv ?_
    rintro a s s' hinv ⟨ho, hk, rfl⟩
    cases a with
    | allocate bx => exact hinv.allocate hk
    | map al bx dx => exact hinv.mapPage ho
    | free dx => exact hinv.free hk
    | poke a v => exact hinv.poke a v
  have hok : dx < emsHandles ∧ s.sys.pagesOf dx ≠ 0 ∧ bx < s.sys.pagesOf dx ∧ al < 4 :=
    ⟨hdx, by omega, hbx, hal⟩
  obtain ⟨-, hpages, -⟩ := copyBack_same ⟨al, hal⟩ s.sys
  rw [mapPage, dif_pos hok]
  refine ⟨rfl, ?_⟩
  rw [window_copyIn, if_pos rfl, hpages]
  exact hinv.back hc fun i hi => Fin.ext (ho hal i hi)

def boot : Seen := ⟨⟨fun _ => 0, fun _ => 0, fun _ => 0, fun _ => none⟩, fun _ => none⟩

theorem boot_start : Start boot := ⟨fun _ => rfl, fun _ => rfl, fun _ => rfl⟩

/-- Two handles with one page each, and the page of handle 1 in the frame. -/
def shown : Seen := ((boot.next (.allocate 1)).next (.allocate 1)).next (.map 0 0 1)

/-- A byte is written to the page of handle 1, and then the frame shows that of handle 0. -/
def hidden : Seen := (shown.next (.poke 0xE0000 7)).next (.map 0 0 0)

def firstByte : Fin emsPage := ⟨0, by decide⟩

theorem Reached.call {s₀ : Seen} (h : Lib.Reached CallStep s₀ s) (c : Call) (ho : Once s c)
    (hk : KeepsPlaces s c) : Lib.Reached CallStep s₀ (s.next c) :=
  h.step c ⟨ho, hk, rfl⟩

theorem hidden_reached : Lib.Reached CallStep boot hidden := by
  have hnone : ∀ q, (boot.next (.allocate 1)).last q = none := by
    intro q
    have hrec : record (boot.sys.run (.allocate 1)) boot.last q = _ :=
      record_unmapped fun i hi => by
        cases hi
    exact hrec.trans (ite_self none)
  have h1 : Lib.Reached CallStep boot (boot.next (.allocate 1)) :=
    Reached.call .start (.allocate 1) trivial fun _ _ _ _ _ => rfl
  have h2 := Reached.call h1 (.allocate 1) trivial fun _ _ h _ p => hnone (h, p)
  have h3 := Reached.call h2 (.map 0 0 1) (fun _ i => by revert i; decide +kernel) trivial
  have h4 := Reached.call h3 (.poke 0xE0000 7) trivial trivial
  exact Reached.call h4 (.map 0 0 0) (fun _ i => by revert i; decide +kernel) trivial

theorem ems_run_hidden : ∃ c, hidden.last (1, 0) = some c ∧ c firstByte = 7 ∧
      window 0 (hidden.sys.mapPage 0 0 1).2.mem = c := by
  have hlast : (hidden.last (1, 0)).map (fun c => c firstByte) = some 7 := by decide +kernel
  obtain ⟨c, hc, hbyte⟩ := Option.map_eq_some_iff.mp hlast
  have honce : Once hidden (.map 0 0 1) := fun _ i => by
    revert i
    decide +kernel
  have hpages : 0 < hidden.sys.pagesOf 1 := by decide +kernel
  have hrun := ems_run boot_start hidden_reached honce (by decide) hpages (by decide) hc
  exact ⟨c, hc, hbyte, hrun.2⟩

/-- Handle 0 is freed, and the page of handle 1 does not show the byte that it had. -/
theorem free_moves_pages : Start boot ∧ ∃ s, s = hidden.next (.free 0) ∧
      (s.last (1, 0)).map (fun c => c firstByte) = some 7 ∧ 0 < s.sys.pagesOf 1 ∧
      window 0 (s.sys.mapPage 0 0 1).2.mem firstByte = 0 := by
  refine ⟨boot_start, _, rfl, ?_⟩
  decide +kernel

end Ems

end ManiOS.Dos
