import ManiOS.Mm.Shared
import ManiOS.Mm.UserPages

/-!
# The break of a program

`process_sbrk` moves the end of a program's heap.  The heap has whole pages: those
from its start to the break, rounded up.  When memory runs out in the middle of a
call, the pages that it has mapped are unmapped again.

A run is any sequence of calls of one process.  Between two calls other processes
run, and the program uses its memory; that does not move its pages.
-/

namespace ManiOS.Mm

open Lib (Reached)
open List Option

def pageUp (addr : Nat) : Nat := u32 (addr + (pageSize - 1)) / pageSize * pageSize

namespace Paging

/-- The loop that takes the new pages back.  `frame` is the variable of that name, which
`vmm_unmap_page` sets only where a page is mapped. -/
def undoPages : Nat → List Nat → Paging → Option Paging
  | _, [], s => some s
  | frame, page :: l, s =>
    (s.unmapPage page).bind fun (f, s) =>
      let frame := f.elim frame (· * pageSize)
      (s.freeFrame frame).bind (undoPages frame l)

/-- The loop that maps pages, where those of `done` are mapped already. -/
def growPages : List Nat → List Nat → Paging → Option (Bool × Paging)
  | _, [], s => some (true, s)
  | done, page :: l, s =>
    let (frame, s) := s.allocFrame
    if frame = 0 then (s.undoPages frame done).map ((false, ·))
    else
      (s.mapPage page frame userFlags).bind fun (ok, s) =>
        if ok then (s.clear page).bind (growPages (done ++ [page]) l)
        else (s.freeFrame frame).bind fun s => (s.undoPages frame done).map ((false, ·))

/-- The loop that unmaps pages.  Where a page is not mapped, the frame that is freed has
no value. -/
def shrinkPages : List Nat → Paging → Option Paging
  | [], s => some s
  | page :: l, s =>
    (s.unmapPage page).bind fun (f, s) =>
      f.bind fun f => (s.freeFrame (f * pageSize)).bind (shrinkPages l)

end Paging

/-- The break of the process that runs, and memory. -/
structure Break where
  paging : Paging
  brkStart : Nat
  brk : Nat

namespace Break

/-- The break that a call asks for. -/
def newBreak (increment : BitVec 32) (b : Break) : Except Errno Nat :=
  if 0 ≤ increment.toInt then
    if u32 (userImageTop + 4294967296 - b.brk) < increment.toNat then .error .enomem
    else .ok (u32 (b.brk + increment.toNat))
  else
    let decrement := (0 - increment).toNat
    if u32 (b.brk + 4294967296 - b.brkStart) < decrement then .error .einval
    else .ok (u32 (b.brk + 4294967296 - decrement))

def processSbrk (increment : BitVec 32) (b : Break) : Option (Except Errno Nat × Break) :=
  match b.newBreak increment with
  | .error e => some (.error e, b)
  | .ok new =>
    let top := pageUp b.brk
    let newTop := pageUp new
    (b.paging.growPages [] (Paging.pagesOf top newTop)).bind fun (ok, s) =>
      if ok then
        (s.shrinkPages (Paging.pagesOf newTop top)).map fun s =>
          (.ok b.brk, { b with paging := s, brk := new })
      else some (.error .enomem, { b with paging := s })

end Break

namespace Paging

variable {own own1 : Roles} {pages : List Space} {pending : Nat → Option (Nat × Nat)}
  {s s1 : Paging} {P : List Nat}

/-! ## The loops -/

/-- No two places of a list are on one page. -/
def Apart (P : List Nat) : Prop := P.Pairwise fun v w => v / pageSize ≠ w / pageSize

theorem Apart.head {v : Nat} (h : Apart (v :: P)) : ¬ OnPages P v := fun ⟨_, hw, hvw⟩ =>
  rel_of_pairwise_cons h hw hvw

theorem undoPages_spec (frame : Nat) (P : List Nat)
    (hP : Apart P) (hg : Grown pages pending P own s s1) :
    ∃ s2 own2, s1.undoPages frame P = some s2 ∧ Grown pages pending [] own2 s s2 := by
  induction P generalizing frame s1 own with
  | nil => exact ⟨s1, own, rfl, hg⟩
  | cons v P ih =>
    obtain ⟨f, hf, -⟩ := hg.page v mem_cons_self
    obtain ⟨s2, s3, own3, hs2, hs3, hr⟩ :=
      hg.layout.removeUserPage (hg.user v mem_cons_self) hf
    have hpage : s1.page v = some f := by rw [page, hf, map_some]
    obtain ⟨s4, own4, hs4, hg4⟩ := ih (f * pageSize) hP.of_cons (hg.remove hP.head hpage hr)
    refine ⟨s4, own4, ?_, hg4⟩
    rw [undoPages, hs2, bind_some]
    dsimp only [elim_some]
    rw [hs3]
    exact hs4

/-- Either all pages are mapped, or none of them is. -/
theorem growPages_spec (l done : List Nat)
    (hl : ∀ v ∈ l, v < userSpaceTop) (hP : Apart (done ++ l))
    (hg : Grown pages pending done own s s1) : ∃ ok s2 own2, s1.growPages done l = some (ok, s2) ∧
      Grown pages pending (if ok then done ++ l else []) own2 s s2 := by
  induction l generalizing done s1 own with
  | nil =>
    rw [append_nil]
    exact ⟨true, s1, own, rfl, hg⟩
  | cons v l ih =>
    have hv := hl v mem_cons_self
    obtain ⟨hdone, -, hcross⟩ := pairwise_append.mp hP
    -- what a call that fails does with the pages before
    have hundo : ∀ frame s2, NoFrame s1 s2 → ∃ s3 own3,
        s2.undoPages frame done = some s3 ∧ Grown pages pending [] own3 s s3 :=
      fun frame s2 hn => undoPages_spec frame done hdone (hg.noFrame hn)
    obtain ⟨m, ⟨halloc, hn⟩ | ⟨f, ok, s2, halloc, hpos, hmap, hor⟩⟩ :=
      hg.layout.addUserPage hv
    · obtain ⟨s3, own3, hs3, hg3⟩ := hundo 0 _ hn
      refine ⟨false, s3, own3, ?_, hg3⟩
      rw [growPages, halloc]
      exact congrArg (Option.map ((false, ·))) hs3
    · rw [growPages, halloc]
      dsimp only
      rw [if_neg hpos, hmap, bind_some]
      rcases hor with ⟨rfl, s3, hs3, hn⟩ | ⟨rfl, s3, own3, hs3, ha⟩
      · obtain ⟨s4, own4, hs4, hg4⟩ := hundo (f * pageSize) s3 hn
        refine ⟨false, s4, own4, ?_, hg4⟩
        rw [if_neg nofun, hs3, bind_some, hs4, map_some]
      · have hnew : ¬ OnPages done v := fun ⟨w, hw, hvw⟩ =>
          hcross w hw v mem_cons_self hvw.symm
        have hassoc : done ++ v :: l = done ++ [v] ++ l := append_cons done v l
        rw [hassoc] at hP ⊢
        obtain ⟨ok, s4, own4, hs4, hg4⟩ := ih (done ++ [v])
          (forall_mem_cons.mp hl).2 hP (hg.add hv hnew ha)
        refine ⟨ok, s4, own4, ?_, hg4⟩
        rw [hs3]
        exact hs4

theorem shrinkPages_spec (h : Settled own pages pending s)
    (l : List Nat) (hl : ∀ v ∈ l, v < userSpaceTop) (hP : Apart l)
    (hmapped : ∀ v ∈ l, ∃ e, s.walk v = some e) :
    ∃ s1 own1, s.shrinkPages l = some s1 ∧ Shrunk pages pending l own1 s s1 := by
  induction l generalizing s own with
  | nil => exact ⟨s, own, rfl, .nil h⟩
  | cons v l ih =>
    have hv := hl v mem_cons_self
    obtain ⟨e, he⟩ := hmapped v mem_cons_self
    obtain ⟨s1, s2, own2, hs1, hs2, hr⟩ := h.removeUserPage hv he
    have hmapped₂ : ∀ w ∈ l, ∃ e, s2.walk w = some e := fun w hw => by
      have hw' := mem_cons_of_mem v hw
      rw [hr.walk w (user_index (hl w hw')) (rel_of_pairwise_cons hP hw).symm]
      exact hmapped w hw'
    obtain ⟨s3, own3, hs3, hg⟩ := ih hr.layout
      (forall_mem_cons.mp hl).2 hP.of_cons hmapped₂
    refine ⟨s3, own3, ?_, .cons h hr hv hg⟩
    rw [shrinkPages, hs1, bind_some]
    dsimp only
    rw [bind_some, hs2]
    exact hs3

/-! ## The pages of a range -/

theorem onPages_pagesOf {a limit u : Nat} (ha : a % pageSize = 0) (hl : limit % pageSize = 0) :
    OnPages (pagesOf a limit) u ↔ a ≤ u ∧ u < limit := by
  constructor
  · rintro ⟨v, hv, huv⟩
    obtain ⟨k, rfl, hlo, hhi⟩ := mem_pagesOf.mp hv
    simp only [pageSize] at *
    omega
  · rintro ⟨hlo, hhi⟩
    refine ⟨u / pageSize * pageSize, mem_pagesOf.mpr ⟨_, rfl, ?_, ?_⟩, ?_⟩
    · exact Nat.div_le_div_right hlo
    · simp only [pageSize] at *
      omega
    · exact (Nat.mul_div_cancel _ (by decide)).symm

theorem apart_pagesOf (a limit : Nat) : Apart (pagesOf a limit) := by
  have hnodup : (pagesOf a limit).Nodup := nodup_range' pageSize (by decide)
  refine .imp_of_mem (fun {v w} hv hw hne => ?_) hnodup
  obtain ⟨j, rfl, -⟩ := mem_pagesOf.mp hv
  obtain ⟨k, rfl, -⟩ := mem_pagesOf.mp hw
  rw [Nat.mul_div_cancel _ (by decide), Nat.mul_div_cancel _ (by decide)]
  rintro rfl
  exact hne rfl

end Paging

namespace Break

open Paging

/-- The tables are in order, and no page of the process is on its way. -/
def Ready (s : Paging) : Prop :=
  ∃ own pages pending, Layout own pages pending s ∧ pending s.active.frame = none

/-- The pages of the heap are those from its start to the break, rounded up. -/
def HeapMapped (b : Break) : Prop :=
  ∀ v, b.brkStart ≤ v → v < userImageTop → ((∃ e, b.paging.walk v = some e) ↔ v < pageUp b.brk)

/-- What holds between two calls. -/
structure Inv (b : Break) : Prop where
  ready : Ready b.paging
  aligned : b.brkStart % pageSize = 0
  lower : b.brkStart ≤ b.brk
  upper : b.brk ≤ userImageTop
  mapped : HeapMapped b

/-- The process is made: its heap is empty. -/
structure Start (b : Break) : Prop where
  ready : Ready b.paging
  aligned : b.brkStart % pageSize = 0
  upper : b.brkStart ≤ userImageTop
  brk : b.brk = b.brkStart
  empty : ∀ v, b.brkStart ≤ v → v < userImageTop → b.paging.walk v = none

/-- What a call does. -/
def Answers (b : Break) (increment : BitVec 32) : Except Errno Nat → Break → Prop
  | .ok old, b' => old = b.brk ∧ (b'.brk : Int) = b.brk + increment.toInt ∧
      ∀ v < userSpaceTop, b.paging.walk v = none → b'.paging.walk v ≠ none →
        b'.paging.byteAt v = some 0
  | .error _, b' => b'.brk = b.brk ∧
      (∀ v < userSpaceTop, b'.paging.walk v = b.paging.walk v) ∧
      ∀ g, b'.paging.pmm.used g = true ↔ b.paging.pmm.used g = true ∨ NewTable b.paging b'.paging g

variable {b b' : Break}

theorem pageUp_spec {addr : Nat} (h : addr ≤ userImageTop) :
    pageUp addr % pageSize = 0 ∧ addr ≤ pageUp addr ∧ pageUp addr < addr + pageSize ∧
      pageUp addr ≤ userImageTop := by
  rw [pageUp, u32_of_lt (by simp only [userImageTop, pageSize] at *; omega)]
  simp only [userImageTop, pageSize] at *
  omega

theorem newBreak_spec (hlo : b.brkStart ≤ b.brk) (hhi : b.brk ≤ userImageTop)
    {increment : BitVec 32} {new : Nat} (h : b.newBreak increment = .ok new) :
    b.brkStart ≤ new ∧ new ≤ userImageTop ∧ (new : Int) = b.brk + increment.toInt := by
  have hint := BitVec.toInt_eq_toNat_cond increment
  have hneg : (0 - increment).toNat = (4294967296 - increment.toNat) % 4294967296 := by
    simp
  rw [newBreak] at h
  split at h
  next hpos =>
    split at h
    next => cases h
    next hroom =>
      cases h
      simp only [u32, userImageTop] at *
      omega
  next hpos =>
    dsimp only at h
    split at h
    next => cases h
    next hroom =>
      cases h
      simp only [u32, userImageTop] at *
      omega

theorem Inv.processSbrk (h : Inv b) (increment : BitVec 32) :
    ∃ r b', b.processSbrk increment = some (r, b') ∧ Inv b' ∧ Answers b increment r b' := by
  obtain ⟨own, pages, pending, hlayout, hpend⟩ := h.ready
  rw [Break.processSbrk]
  cases hnew : b.newBreak increment with
  | error e =>
    refine ⟨_, _, rfl, h, rfl, fun _ _ => rfl, fun g => ⟨.inl, fun hor => ?_⟩⟩
    exact hor.elim id fun hg => (NewTable.not_self hg).elim
  | ok new =>
    obtain ⟨hlo, hhi, hsum⟩ := newBreak_spec h.lower h.upper hnew
    obtain ⟨haligned, hup, -, htop⟩ := pageUp_spec h.upper
    obtain ⟨haligned', hup', -, htop'⟩ := pageUp_spec hhi
    have huser : userImageTop < userSpaceTop := by decide
    have hgrow : ∀ v ∈ pagesOf (pageUp b.brk) (pageUp new), v < userSpaceTop := fun v hv => by
      have := ((onPages_pagesOf haligned haligned').mp ⟨v, hv, rfl⟩).2
      omega
    have hshrink : ∀ v ∈ pagesOf (pageUp new) (pageUp b.brk),
        b.brkStart ≤ v ∧ v < userImageTop ∧ v < pageUp b.brk ∧ pageUp new ≤ v := fun v hv => by
      have := (onPages_pagesOf haligned' haligned).mp ⟨v, hv, rfl⟩
      omega
    obtain ⟨ok, s, own1, hs, hg⟩ := growPages_spec _ [] hgrow (apart_pagesOf _ _)
      (.nil ⟨hlayout, hpend⟩ ⟨b.paging.pmm, rfl, hlayout.ok, rfl, rfl⟩)
    dsimp only
    rw [hs, bind_some]
    cases ok with
    | false =>
      refine ⟨_, _, rfl, ?_, rfl, fun v hv => hg.walk v hv onPages_nil, fun g => ?_⟩
      · refine ⟨⟨own1, pages, pending, hg.layout.toLayout, hg.layout.pend⟩, h.aligned, h.lower, h.upper,
          fun v hlo hhi => ?_⟩
        rw [hg.walk v (lt_trans hhi huser) onPages_nil]
        exact h.mapped v hlo hhi
      · refine (hg.used g).trans (or_congr_right (or_iff_left ?_))
        exact fun ⟨_, hv, _⟩ => not_mem_nil hv
    | true =>
      have hsame : ∀ v < userImageTop, ¬ (pageUp b.brk ≤ v ∧ v < pageUp new) →
          s.walk v = b.paging.walk v := fun v hv hout =>
        hg.walk v (lt_trans hv huser) fun hon =>
          hout ((onPages_pagesOf haligned haligned').mp hon)
      obtain ⟨s2, own2, hs2, hsh⟩ := shrinkPages_spec hg.layout _
        (fun v hv => lt_trans (hshrink v hv).2.1 huser) (apart_pagesOf _ _) fun v hv => by
          obtain ⟨hlo, hhi, hlt, hge⟩ := hshrink v hv
          rw [hsame v hhi (by omega)]
          exact (h.mapped v hlo hhi).mpr hlt
      rw [hs2]
      refine ⟨_, _, rfl, ⟨⟨own2, pages, pending, hsh.layout.toLayout, hsh.layout.pend⟩, h.aligned, hlo, hhi,
        fun v hv hv' => ?_⟩, rfl, hsum, fun v hv hnone hsome => ?_⟩
      · dsimp only
        by_cases hout : OnPages (pagesOf (pageUp new) (pageUp b.brk)) v
        · rw [hsh.unmapped hout]
          have := (onPages_pagesOf haligned' haligned).mp hout
          exact iff_of_false (fun h => h.elim fun _ he => some_ne_none _ he.symm) (by omega)
        · rw [hsh.walk v (lt_trans hv' huser) hout]
          rw [onPages_pagesOf haligned' haligned] at hout
          by_cases hin : pageUp b.brk ≤ v ∧ v < pageUp new
          · exact iff_of_true (hg.mapped ((onPages_pagesOf haligned haligned').mpr hin)) hin.2
          · rw [hsame v hv' hin, h.mapped v hv hv']
            omega
      · by_cases hout : OnPages (pagesOf (pageUp new) (pageUp b.brk)) v
        · exact absurd (hsh.unmapped hout) hsome
        · refine (hsh.bytes v hv hout).trans ?_
          by_cases hin : OnPages (pagesOf (pageUp b.brk) (pageUp new)) v
          · exact hg.zero v hv hin
          · exact absurd ((hsh.walk v hv hout).trans ((hg.walk v hv hin).trans hnone)) hsome

/-! ## Runs -/

/-- What can happen. -/
inductive Call where
  | sbrk (increment : BitVec 32)
  | others

/-- Other processes run, or the program uses its memory.  The pages of the process stay
where they are. -/
structure Others (b b' : Break) : Prop where
  ready : Ready b'.paging
  active : b'.paging.active = b.paging.active
  walk : ∀ v < userSpaceTop, b'.paging.walk v = b.paging.walk v
  brkStart : b'.brkStart = b.brkStart
  brk : b'.brk = b.brk

def Step : Call → Break → Break → Prop
  | .sbrk increment, b, b' => ∃ r, b.processSbrk increment = some (r, b')
  | .others, b, b' => Others b b'

theorem Start.inv (h : Start b) : Inv b := by
  obtain ⟨hready, haligned, hupper, hbrk, hempty⟩ := h
  have hround : pageUp b.brkStart = b.brkStart := by
    obtain ⟨h1, h2, h3, -⟩ := pageUp_spec hupper
    simp only [pageSize] at *
    omega
  refine ⟨hready, haligned, le_of_eq hbrk.symm, hbrk ▸ hupper, fun v hlo hhi => ?_⟩
  rw [hempty v hlo hhi, hbrk]
  exact iff_of_false (fun h => h.elim fun _ he => some_ne_none _ he.symm) (by omega)

theorem Inv.others (h : Inv b) (ho : Others b b') : Inv b' := by
  refine ⟨ho.ready, ?_, ?_, ?_, fun v hlo hhi => ?_⟩
  · rw [ho.brkStart]
    exact h.aligned
  · rw [ho.brkStart, ho.brk]
    exact h.lower
  · rw [ho.brk]
    exact h.upper
  · rw [ho.brkStart] at hlo
    rw [ho.walk v (lt_trans hhi (by decide)), ho.brk]
    exact h.mapped v hlo hhi

theorem Inv.of_run {b₀ : Break} (h₀ : Start b₀) (h : Reached Step b₀ b) : Inv b := by
  refine h.invariant (P := Inv) h₀.inv ?_
  rintro (increment | _) c c' hc hs
  · obtain ⟨r, hr⟩ := hs
    obtain ⟨r', b', hr', hinv, -⟩ := hc.processSbrk increment
    cases hr.symm.trans hr'
    exact hinv
  · exact hc.others hs

end Break

/-- After every run the heap's pages are those below the break, and every call gives the
answer that it should: it returns the old break and moves it, with zeros on the new
pages, or it fails and only page tables remain of what it did. -/
theorem sbrk_run {b₀ b : Break} (h₀ : b₀.Start) (h : Reached Break.Step b₀ b)
    (increment : BitVec 32) :
    b.HeapMapped ∧ ∃ r b', b.processSbrk increment = some (r, b') ∧ b'.HeapMapped ∧
      b.Answers increment r b' := by
  have hinv := Break.Inv.of_run h₀ h
  obtain ⟨r, b', hr, hinv', hanswers⟩ := hinv.processSbrk increment
  exact ⟨hinv.mapped, r, b', hr, hinv'.mapped, hanswers⟩

/-- A program without pages on the small machine. -/
def bootBreak : Break := ⟨bootVm.paging, 0x400000, 0x400000⟩

theorem bootBreak_start : bootBreak.Start :=
  ⟨⟨_, _, _, boot_start.inv.layout, rfl⟩, by decide, by decide, rfl, fun v _ hv =>
    boot_unmapped v (lt_trans hv (by decide))⟩

/-- Three pages and five bytes, and back. -/
theorem sbrk_run_boot : ∃ b, Reached Break.Step bootBreak b ∧ b.HeapMapped ∧
      ∃ r b', b.processSbrk (-0x3005) = some (r, b') ∧ b'.HeapMapped ∧
        b.Answers (-0x3005) r b' := by
  obtain ⟨r, b, hr, -⟩ := bootBreak_start.inv.processSbrk 0x3005
  have hrun : Reached Break.Step bootBreak b := .step (.sbrk 0x3005) .start ⟨r, hr⟩
  exact ⟨b, hrun, sbrk_run bootBreak_start hrun (-0x3005)⟩

end ManiOS.Mm
