import ManiOS.Lib.Runs
import ManiOS.Mm.Directories
import Mathlib.Data.Set.Insert

/-!
# The kernel's half of every address space

Threads call `paging.c` from any address space and are interrupted between its
atomic parts.  `Vm` is the state with what the callers know: the frames they hold,
the directories that are being made or taken down, and the page that
`vmm_as_clear_user` is at in an address space.  `Vm.Step` is one atomic part.

In every run the kernel's entries are the same in all directories of the list, as
long as nobody maps or unmaps pages of the area where the kernel's page tables are:
these calls would store into the kernel's own directory only.
-/

namespace ManiOS.Mm

open Function (update update_self update_of_ne)
open Lib (Reached)
open Paging List
open Option (map_eq_some_iff bind_eq_some_iff map_some bind)

/-- The state, with what the callers know.  `made` are the pages of new directories
that have not joined the list, and `gone` those of directories that have left it. -/
structure Vm where
  paging : Paging
  held : Set Nat
  made : List Space
  gone : List Space
  pending : Nat → Option (Nat × Nat)

/-- The atomic parts of the calls. -/
inductive VmCall where
  | takeFrame
  | giveFrame (f : Nat)
  | mapPage (virt phys : UInt32) (flags : MapFlags)
  | unmapPage (virt : UInt32)
  | kpageAlloc
  | asJoin (p : Space)
  | asActivate (p : Space)
  | freePage (pdi pti : Nat)
  | clearEntry (pdi pti : Nat)
  | dropTable (pdi : Nat)
  | asUnlink (p : Space)
  | kpageUnmap (p : Space)
  | kpageRelease (va : Nat)

namespace Vm

/-- The directories that are not in the list. -/
def pages (v : Vm) : List Space := v.made ++ v.gone

/-- The page that `vmm_as_clear_user` is at in the active address space. -/
def clearing (v : Vm) : Option (Nat × Nat) := v.pending v.paging.active.frame

/-- An address that a caller may map or unmap a page at: not in the area of the page
tables, and not the page of a directory. -/
def Free (v : Vm) (virt : Nat) : Prop :=
  pdIndexOf virt ≠ ptAreaIndex ∧ ∀ p ∈ v.paging.spaces ++ v.pages, virt / pageSize ≠ p.pd / pageSize

/-- One atomic part of a call that does not panic.  A caller maps only frames that it
holds for a user, and works on no address space that is being cleared. -/
inductive Step : VmCall → Vm → Vm → Prop
  | takeFrame {v : Vm} {phys : Nat} {s : Paging} (h : v.paging.allocFrame = (phys, s)) :
      Step .takeFrame v
        { v with paging := s, held := v.held ∪ { f | phys ≠ 0 ∧ f = phys / pageSize } }
  | giveFrame {v : Vm} {f : Nat} {s : Paging} (hf : f ∈ v.held)
      (h : v.paging.freeFrame (f * pageSize) = some s) :
      Step (.giveFrame f) v { v with paging := s, held := v.held \ {f} }
  | mapKernel {v : Vm} {virt phys : UInt32} {flags : MapFlags} {ok : Bool} {s : Paging}
      (hfree : v.Free virt.toNat) (hkernel : ¬ virt.toNat < userSpaceTop)
      (h : v.paging.mapPage virt.toNat phys.toNat flags = some (ok, s)) :
      Step (.mapPage virt phys flags) v { v with paging := s }
  | mapUser {v : Vm} {virt phys : UInt32} {flags : MapFlags} {ok : Bool} {s : Paging}
      (huser : virt.toNat < userSpaceTop) (hheld : phys.toNat / pageSize ∈ v.held)
      (hclear : v.clearing = none)
      (h : v.paging.mapPage virt.toNat phys.toNat flags = some (ok, s)) :
      Step (.mapPage virt phys flags) v
        { v with paging := s, held := if ok then v.held \ {phys.toNat / pageSize} else v.held }
  | unmapKernel {v : Vm} {virt : UInt32} {x : Option Nat} {s : Paging}
      (hfree : v.Free virt.toNat) (hkernel : ¬ virt.toNat < userSpaceTop)
      (h : v.paging.unmapPage virt.toNat = some (x, s)) :
      Step (.unmapPage virt) v { v with paging := s }
  | unmapUser {v : Vm} {virt : UInt32} {x : Option Nat} {s : Paging}
      (huser : virt.toNat < userSpaceTop) (hclear : v.clearing = none)
      (h : v.paging.unmapPage virt.toNat = some (x, s)) :
      Step (.unmapPage virt) v { v with paging := s, held := v.held ∪ { f | x = some f } }
  | kpageAlloc {v : Vm} {x : Option Space} {s : Paging} (h : v.paging.kpageAlloc = some (x, s)) :
      Step .kpageAlloc v { v with paging := s, made := x.toList ++ v.made }
  | asJoin {v : Vm} {p : Space} {s : Paging} (hp : p ∈ v.made) (h : v.paging.asJoin p = some s) :
      Step (.asJoin p) v { v with paging := s, made := v.made.erase p }
  | asActivate {v : Vm} {p : Space} (hp : p ∈ v.paging.spaces) :
      Step (.asActivate p) v { v with paging := v.paging.asActivate p }
  | freePage {v : Vm} {pdi pti : Nat} {s : Paging} (hpdi : pdi < kernelPdFirst)
      (hclear : v.clearing = none) (h : v.paging.freePage pdi pti = some (true, s)) :
      Step (.freePage pdi pti) v { v with
        paging := s
        pending := update v.pending v.paging.active.frame (some (pdi, pti)) }
  | clearEntry {v : Vm} {pdi pti : Nat} {s : Paging} (hpdi : pdi < kernelPdFirst)
      (hclear : v.clearing = some (pdi, pti)) (h : v.paging.clearEntry pdi pti = some s) :
      Step (.clearEntry pdi pti) v { v with
        paging := s
        pending := update v.pending v.paging.active.frame none }
  | dropTable {v : Vm} {pdi f : Nat} {s : Paging} (hpdi : pdi < kernelPdFirst)
      (hclear : v.clearing = none) (h : v.paging.dropTable pdi = some (f, s)) :
      Step (.dropTable pdi) v { v with paging := s, held := insert f v.held }
  | asUnlink {v : Vm} {p : Space} {s : Paging} (h : v.paging.asUnlink p = some s) :
      Step (.asUnlink p) v { v with paging := s, gone := p :: v.gone }
  | kpageUnmap {v : Vm} {p : Space} {f : Nat} {s : Paging} (hp : p ∈ v.gone)
      (h : v.paging.kpageUnmap p.pd = some (f, s)) :
      Step (.kpageUnmap p) v { v with paging := s, gone := v.gone.erase p, held := insert f v.held }
  | kpageRelease {v : Vm} {va : Nat} :
      Step (.kpageRelease va) v { v with paging := v.paging.kpageRelease va }

/-- The frames have roles, and the directories that are being made are empty. -/
structure Inv (own : Roles) (v : Vm) : Prop where
  layout : v.paging.Layout own v.pages v.pending
  held : ∀ f ∈ v.held, own f = some .held
  blank : ∀ p ∈ v.made, ∀ k, v.paging.ram.entry p.frame k = none

variable {own : Roles} {v v' : Vm} {call : VmCall} {s : Paging}

namespace Inv

variable {s : Paging} {p : Space} {pdi pti : Nat}

variable (h : Inv own v)
include h

theorem takeFrame {phys : Nat} (hs : v.paging.allocFrame = (phys, s)) : ∃ own', Inv own' { v with
      paging := s, held := v.held ∪ { f | phys ≠ 0 ∧ f = phys / pageSize } } := by
  obtain ⟨m, hzero, hno⟩ | ⟨m, f, ha⟩ := h.layout.alloc
  · cases hs.symm.trans hzero
    refine ⟨own, hno.layout h.layout, ?_, h.blank⟩
    intro f hf
    exact hf.elim (h.held f) fun hf => absurd rfl hf.1
  · cases hs.symm.trans ha.alloc
    refine ⟨_, h.layout.take ha, fun g hg => ?_, h.blank⟩
    rcases hg with hg | ⟨-, rfl⟩
    · exact role_update ha.role (h.held g hg)
    · rw [Nat.mul_div_cancel f (by decide), update_self]

variable {virt : UInt32} {f : Nat}

theorem giveFrame (hf : f ∈ v.held) (hs : v.paging.freeFrame (f * pageSize) = some s) :
    ∃ own', Inv own' { v with paging := s, held := v.held \ {f} } := by
  obtain ⟨m, hm, -, hlayout⟩ := h.layout.give (h.held f hf)
  cases hs.symm.trans hm
  refine ⟨_, hlayout, fun g hg => ?_, h.blank⟩
  rw [update_of_ne hg.2]
  exact h.held g hg.1

theorem made_unlisted (hp : p ∈ v.made) :
    own p.frame = some .dir ∧ p.frame ∉ v.paging.spaces.map Space.frame := by
  have hpage : p ∈ v.pages := mem_append_left _ hp
  refine ⟨h.layout.dir p (mem_append_right _ hpage), fun hin => ?_⟩
  have hnodup := h.layout.nodup
  rw [map_append] at hnodup
  exact (nodup_append.mp hnodup).2.2 _ hin _ (mem_map_of_mem hpage) rfl

theorem blank_congr {r : Ram} (hr : ∀ p ∈ v.made, r p.frame = v.paging.ram p.frame) :
    ∀ p ∈ v.made, ∀ k, r.entry p.frame k = none := by
  intro p hp k
  rw [Ram.entry_congr (hr p hp)]
  exact h.blank p hp k

theorem mapKernel {phys : UInt32} {flags : MapFlags} {ok : Bool}
    (hfree : v.Free virt.toNat) (hkernel : ¬ virt.toNat < userSpaceTop)
    (hs : v.paging.mapPage virt.toNat phys.toNat flags = some (ok, s)) :
    ∃ own', Inv own' { v with paging := s } := by
  obtain ⟨ok', s', hs', hor⟩ := h.layout.mapPage phys.toNat flags virt.toNat_lt hfree.1
  cases hs.symm.trans hs'
  rcases hor with ⟨-, hno, -⟩ | ⟨-, own1, s1, hm⟩
  · refine ⟨own, hno.layout h.layout, h.held, ?_⟩
    obtain ⟨m, rfl, -⟩ := hno
    exact h.blank
  · refine ⟨own1, hm.layout_kernel phys.toNat_lt hkernel,
      fun f hf => hm.table.roles f _ (h.held f hf), h.blank_congr fun p hp => ?_⟩
    obtain ⟨hdir, hlist⟩ := h.made_unlisted hp
    exact hm.ram_eq hdir (.inr ⟨rfl, hlist⟩)

omit h

theorem kernel_area {virt : Nat} (hvirt : virt < 4294967296) (h : ¬ virt < userSpaceTop)
    (hrec : pdIndexOf virt ≠ recursivePdIndex) (harea : pdIndexOf virt ≠ ptAreaIndex) :
    kernelPdFirst ≤ pdIndexOf virt ∧ pdIndexOf virt < ptAreaIndex := by
  simp only [pdIndexOf, kernelPdFirst, userSpaceTop, recursivePdIndex, ptAreaIndex] at *
  omega

section

variable (h : Inv own v)
include h

theorem mapUser {phys : UInt32} {flags : MapFlags} {ok : Bool}
    (huser : virt.toNat < userSpaceTop) (hheld : phys.toNat / pageSize ∈ v.held)
    (hclear : v.clearing = none)
    (hs : v.paging.mapPage virt.toNat phys.toNat flags = some (ok, s)) : ∃ own', Inv own' { v with
      paging := s, held := if ok then v.held \ {phys.toNat / pageSize} else v.held } := by
  have harea : pdIndexOf virt.toNat ≠ ptAreaIndex :=
    ne_of_lt (lt_trans (user_area huser).2 (by decide))
  obtain ⟨ok', s', hs', hor⟩ := h.layout.mapPage phys.toNat flags virt.toNat_lt harea
  cases hs.symm.trans hs'
  rcases hor with ⟨rfl, hno, -⟩ | ⟨rfl, own1, s1, hm⟩
  · refine ⟨own, hno.layout h.layout, h.held, ?_⟩
    obtain ⟨m, rfl, -⟩ := hno
    exact h.blank
  · refine ⟨_, hm.layout_user phys.toNat_lt huser (h.held _ hheld) hclear, fun f hf => ?_,
      h.blank_congr fun p hp => ?_⟩
    · rw [update_of_ne hf.2]
      exact hm.table.roles f _ (h.held f hf.1)
    · obtain ⟨hdir, hlist⟩ := h.made_unlisted hp
      exact hm.ram_eq hdir (.inr ⟨rfl, hlist⟩)

theorem blank_setEntry {i : Nat} {a : Role} {x : Option Entry} (hf : own f = some a)
    (ha : a ≠ .dir) : ∀ p ∈ v.made, ∀ k, (v.paging.ram.setEntry f i x).entry p.frame k = none :=
  h.blank_congr fun _ hp =>
    Ram.setEntry_of_ne_frame (role_ne (h.made_unlisted hp).1 hf ha.symm)

theorem unmapKernel {x : Option Nat}
    (hfree : v.Free virt.toNat) (hkernel : ¬ virt.toNat < userSpaceTop)
    (hs : v.paging.unmapPage virt.toNat = some (x, s)) : Inv own { v with paging := s } := by
  rw [unmapPage] at hs
  rcases h.layout.change virt.toNat_lt fun _ => none with
    ⟨-, hs'⟩ | ⟨hrec, e, pte, he, hpte, hs'⟩
  · rw [hs'] at hs
    cases hs
    exact h
  · rw [hs'] at hs
    cases hs
    obtain ⟨hlo, hhi⟩ := kernel_area virt.toNat_lt hkernel hrec hfree.1
    rw [h.layout.shared_active hlo hhi] at he
    have hrole := h.layout.kernelTable _ hlo hhi e he
    refine ⟨h.layout.setKernelEntry hlo hhi he (fun p hp hpd hpt => ?_)
      (Ram.entry_setEntry Entry.fits_none), h.held, h.blank_setEntry hrole (by simp)⟩
    refine hfree.2 p hp ?_
    simp only [pdIndexOf, ptIndexOf, pageSize] at hpd hpt ⊢
    omega

theorem unmapUser {x : Option Nat} (huser : virt.toNat < userSpaceTop)
    (hclear : v.clearing = none) (hs : v.paging.unmapPage virt.toNat = some (x, s)) :
    ∃ own', Inv own' { v with paging := s, held := v.held ∪ { f | x = some f } } := by
  rcases h.layout.unmapPage_user huser hclear with
    ⟨-, hs'⟩ | ⟨e, pte, he, -, hpage, hs', hlayout⟩
  · cases hs.symm.trans hs'
    exact ⟨own, h.layout, fun f hf => hf.elim (h.held f) nofun, h.blank⟩
  · cases hs.symm.trans hs'
    have hrole := (h.layout.userTable _ h.layout.active _ (user_area huser).2 e he).1
    refine ⟨_, hlayout, fun f hf => ?_, h.blank_setEntry hrole nofun⟩
    rcases hf with hf | hf
    · exact role_change (h.held f hf) hpage nofun
    · cases hf
      exact update_self ..

theorem kpageAlloc {x : Option Space} (hs : v.paging.kpageAlloc = some (x, s)) :
    ∃ own', Inv own' { v with paging := s, made := x.toList ++ v.made } := by
  obtain ⟨x', s', hs', ⟨rfl, hram, -, hlayout⟩ | ⟨p, own', rfl, hnew⟩⟩ := h.layout.kpageAlloc
  · cases hs.symm.trans hs'
    refine ⟨own, hlayout, h.held, fun p hp k => ?_⟩
    rw [show ({ v with paging := s, made := v.made } : Vm).paging.ram = v.paging.ram from hram]
    exact h.blank p hp k
  · cases hs.symm.trans hs'
    refine ⟨own', hnew.layout, fun f hf => hnew.roles f _ (h.held f hf), fun q hq k => ?_⟩
    rcases mem_cons.mp hq with rfl | hq
    · exact hnew.blank k
    · obtain ⟨hdir, hlist⟩ := h.made_unlisted hq
      exact (congrFun (Ram.entry_congr (hnew.unlisted _ hdir hlist)) k).trans (h.blank q hq k)

theorem pages_nodup : v.pages.Nodup := (h.layout.nodup.of_map _).of_append_right

theorem asJoin (hp : p ∈ v.made) (hs : v.paging.asJoin p = some s) :
    Inv own { v with paging := s, made := v.made.erase p } := by
  have hpage : p ∈ v.pages := mem_append_left _ hp
  obtain ⟨r, hr, hother, hlayout⟩ := h.layout.asJoin hpage (h.blank p hp)
  cases hs.symm.trans hr
  have hpages : v.pages.erase p = v.made.erase p ++ v.gone := erase_append_left _ hp
  refine ⟨?_, h.held, fun q hq k => ?_⟩
  · rw [hpages] at hlayout
    exact hlayout
  · obtain ⟨hne, hq⟩ := h.pages_nodup.of_append_left.mem_erase_iff.mp hq
    have hframe : q.frame ≠ p.frame := fun heq => hne (h.layout.frame_inj
      (mem_append_right _ (mem_append_left _ hq)) (mem_append_right _ hpage) heq)
    exact (congrFun (Ram.entry_congr (hother _ hframe)) k).trans (h.blank q hq k)

variable (hpdi : pdi < kernelPdFirst)
include hpdi

theorem load_pageTable {x : Option Entry} (hx : v.paging.load (pageTable pdi) pti = some x) :
    ∃ e, v.paging.ram.entry v.paging.active.frame pdi = some e ∧
      v.paging.page (pageTable pdi) = some e.frame ∧ v.paging.ram.entry e.frame pti = x := by
  have hpage := h.layout.page_pageTable (lt_trans hpdi (by decide))
  obtain ⟨f, hf, rfl⟩ := map_eq_some_iff.mp hx
  rw [hpage] at hf
  obtain ⟨e, he, rfl⟩ := map_eq_some_iff.mp hf
  exact ⟨e, he, by rw [hpage, he, map_some], rfl⟩

theorem freePage (hclear : v.clearing = none) (hs : v.paging.freePage pdi pti = some (true, s)) :
    ∃ own', Inv own' { v with
      paging := s
      pending := update v.pending v.paging.active.frame (some (pdi, pti)) } := by
  obtain ⟨x, hx, hs⟩ := bind_eq_some_iff.mp hs
  obtain ⟨e, he, -, hentry⟩ := h.load_pageTable hpdi hx
  cases x with
  | none => cases hs
  | some pte =>
    have hpage := h.layout.userPage _ h.layout.active _ hpdi e he _ pte hentry (by
      rw [show v.pending v.paging.active.frame = none from hclear]
      nofun)
    obtain ⟨m, hm, hok, hcount, hused⟩ := h.layout.freeFrame hpage
    dsimp only at hs
    rw [hm] at hs
    cases hs
    refine ⟨update own pte.frame none, ?_, fun f hf => ?_, h.blank⟩
    · refine h.layout.setUserEntry (r := v.paging.ram) h.layout.active hpdi he (j := pti)
        (x := some pte) (fun g k => ?_) (.inl hclear) (fun q hq => update_of_ne hq ..)
        (fun _ _ hf _ hne => role_change hf hpage hne) (fun e' _ hne => ?_) hok
        fun _ _ => h.layout.used_give hcount hused
      · split
        next hc => rw [hc.1, hc.2, hentry]
        next => rfl
      · exact absurd (update_self ..) hne
    · exact role_change (h.held f hf) hpage nofun

theorem clearEntry (hclear : v.clearing = some (pdi, pti))
    (hs : v.paging.clearEntry pdi pti = some s) :
    Inv own { v with
      paging := s
      pending := update v.pending v.paging.active.frame none } := by
  obtain ⟨f, hf, rfl⟩ := map_eq_some_iff.mp hs
  rw [h.layout.page_pageTable (lt_trans hpdi (by decide))] at hf
  obtain ⟨e, he, rfl⟩ := map_eq_some_iff.mp hf
  have hrole := (h.layout.userTable _ h.layout.active _ hpdi e he).1
  refine ⟨?_, h.held, h.blank_setEntry hrole nofun⟩
  exact h.layout.setUserEntry (m := v.paging.pmm) h.layout.active hpdi he
    (Ram.entry_setEntry Entry.fits_none) (.inr hclear) (fun q hq => update_of_ne hq ..)
    (fun _ _ hf _ _ => hf) nofun h.layout.ok h.layout.used

theorem dropTable (hs : v.paging.dropTable pdi = some (f, s)) :
    ∃ own', Inv own' { v with paging := s, held := insert f v.held } := by
  rw [Paging.dropTable, load, store, h.layout.page_pd, map_some, Option.bind_some] at hs
  obtain ⟨e, he, hs⟩ := bind_eq_some_iff.mp hs
  cases hs
  have hrole := (h.layout.userTable _ h.layout.active _ hpdi e he).1
  have hlayout := h.layout.leaveUserTable h.layout.active hpdi he
    (Ram.entry_setEntry Entry.fits_none)
  refine ⟨_, hlayout, fun g hg => ?_, h.blank_congr fun p hp => ?_⟩
  · rcases hg with rfl | hg
    · exact update_self ..
    · exact role_change (h.held g hg) hrole (by simp)
  · refine Ram.setEntry_of_ne_frame fun heq => (h.made_unlisted hp).2 ?_
    rw [heq]
    exact mem_map_of_mem h.layout.active

omit hpdi

theorem asUnlink (hs : v.paging.asUnlink p = some s) :
    Inv own { v with paging := s, gone := p :: v.gone } := by
  rw [Paging.asUnlink] at hs
  split at hs
  · cases hs
  next hcheck =>
    cases hs
    simp only [not_or, not_not] at hcheck
    refine ⟨(h.layout.unlink hcheck.2.2 hcheck.1 hcheck.2.1).perm ?_, h.held, h.blank⟩
    exact perm_middle.symm

theorem kpageUnmap (hp : p ∈ v.gone) (hs : v.paging.kpageUnmap p.pd = some (f, s)) :
    ∃ own', Inv own' { v with paging := s, gone := v.gone.erase p, held := insert f v.held } := by
  have hpage : p ∈ v.pages := mem_append_right _ hp
  obtain ⟨rfl, hlayout, hram⟩ := h.layout.kpageUnmap hpage hs
  have hdir := h.layout.dir p (mem_append_right _ hpage)
  refine ⟨_, hlayout.perm ?_, fun g hg => ?_, h.blank_congr fun q hq => ?_⟩
  · have hmade : p ∉ v.made := fun hin =>
      (nodup_append.mp h.pages_nodup).2.2 p hin p hp rfl
    rw [Vm.pages, erase_append_right _ hmade]
    exact .refl _
  · rcases hg with rfl | hg
    · exact update_self ..
    · exact role_change (h.held g hg) hdir nofun
  · exact hram _ (h.made_unlisted hq).1

end

end Inv

theorem Inv.step (h : Inv own v) (hs : Step call v v') : ∃ own', Inv own' v' := by
  cases hs with
  | takeFrame hs => exact h.takeFrame hs
  | giveFrame hf hs => exact h.giveFrame hf hs
  | mapKernel hfree hkernel hs => exact h.mapKernel hfree hkernel hs
  | mapUser huser hheld hclear hs => exact h.mapUser huser hheld hclear hs
  | unmapKernel hfree hkernel hs => exact ⟨own, h.unmapKernel hfree hkernel hs⟩
  | unmapUser huser hclear hs => exact h.unmapUser huser hclear hs
  | kpageAlloc hs => exact h.kpageAlloc hs
  | asJoin hp hs => exact ⟨own, h.asJoin hp hs⟩
  | asActivate hp => exact ⟨own, h.layout.activate hp, h.held, h.blank⟩
  | freePage hpdi hclear hs => exact h.freePage hpdi hclear hs
  | clearEntry hpdi hclear hs => exact ⟨own, h.clearEntry hpdi hclear hs⟩
  | dropTable hpdi hclear hs => exact h.dropTable hpdi hs
  | asUnlink hs => exact ⟨own, h.asUnlink hs⟩
  | kpageUnmap hp hs => exact h.kpageUnmap hp hs
  | kpageRelease => exact ⟨own, h.layout.setSlots _, h.held, h.blank⟩

/-! ## Whole calls

A call that is not interrupted is a run of its atomic parts, so that all that holds in every
run holds after it. -/

theorem asCreate_run {x : Option Space} (h : v.paging.asCreate = some (x, s)) :
    Reached Step v { v with paging := s } := by
  obtain ⟨⟨y, s1⟩, h1, h⟩ := bind_eq_some_iff.mp h
  have hrun : Reached Step v _ := .step _ .start (.kpageAlloc h1)
  cases y with
  | none =>
    cases h
    exact hrun
  | some p =>
    obtain ⟨s2, h₂, h⟩ := map_eq_some_iff.mp h
    cases h
    have hrun := hrun.step _ (.asJoin (p := p) mem_cons_self h₂)
    rw [show (some p).toList ++ v.made = p :: v.made from rfl, erase_cons_head] at hrun
    exact hrun

/-- The end of an address space, a result of its own. -/
theorem asDestroy_run {p : Space} (h : v.paging.asDestroy p = some s) :
    ∃ held, Reached Step v { v with paging := s, held } := by
  obtain ⟨s1, h1, h⟩ := bind_eq_some_iff.mp h
  obtain ⟨⟨f, s2⟩, h₂, h⟩ := bind_eq_some_iff.mp h
  obtain ⟨s3, h₃, rfl⟩ := map_eq_some_iff.mp h
  have hrun : Reached Step v _ := .step _ .start (.asUnlink h1)
  have hrun := hrun.step _ (.kpageUnmap (p := p) mem_cons_self h₂)
  have hrun := hrun.step _ (.giveFrame (f := f) (Set.mem_insert f _) h₃)
  have hrun := hrun.step _ (@Vm.Step.kpageRelease _ p.pd)
  rw [erase_cons_head] at hrun
  exact ⟨_, hrun⟩

theorem Inv.reached (h : Inv own v) (hr : Reached Step v v') : ∃ own', Inv own' v' := by
  refine hr.invariant (P := fun v => ∃ own, Inv own v) ⟨own, h⟩ ?_
  rintro call v v' ⟨own, hi⟩ hs
  exact hi.step hs

/-- The inner loop does not fail, and leaves the directory. -/
theorem clearTable_run {pdi : Nat} {e : Entry} (l : List Nat) (hpdi : pdi < kernelPdFirst)
    (h : Inv own v) (hclear : v.clearing = none)
    (he : v.paging.ram.entry v.paging.active.frame pdi = some e) :
    ∃ s, v.paging.clearTable pdi l = some s ∧ Reached Step v { v with paging := s } ∧
      s.active = v.paging.active ∧
      s.ram.entry v.paging.active.frame = v.paging.ram.entry v.paging.active.frame := by
  induction l generalizing own v with
  | nil => exact ⟨v.paging, rfl, .start, rfl, rfl⟩
  | cons pti l ih =>
    have hpage : v.paging.page (pageTable pdi) = some e.frame := by
      rw [h.layout.page_pageTable (lt_trans hpdi (by decide)), he, map_some]
    cases hx : v.paging.ram.entry e.frame pti with
    | none =>
      obtain ⟨s, hs, hrest⟩ := ih h hclear he
      exact ⟨s, by simp [clearTable, Paging.freePage, load, hpage, hx, hs], hrest⟩
    | some pte =>
      have hpend : v.pending v.paging.active.frame = none := hclear
      have huser := h.layout.userPage _ h.layout.active _ hpdi e he _ pte hx (by simp [hpend])
      obtain ⟨m, hm, -⟩ := h.layout.freeFrame huser
      have hfree : v.paging.freePage pdi pti = some (true, { v.paging with pmm := m }) := by
        simp [Paging.freePage, load, hpage, hx, hm]
      generalize hr : v.paging.ram.setEntry e.frame pti none = r
      have hentry : clearEntry pdi pti { v.paging with pmm := m } =
          some { v.paging with pmm := m, ram := r } := by
        rw [← hr]
        exact congrArg (Option.map _) hpage
      have hrun : Reached Step v _ := .step _ .start (.freePage hpdi hclear hfree)
      have hrun := hrun.step _ (.clearEntry hpdi (update_self ..) hentry)
      have hpending : update v.pending _ none = v.pending :=
        Function.update_eq_self_iff.mpr hpend.symm
      rw [Function.update_idem, hpending] at hrun
      have hdir : r.entry v.paging.active.frame = v.paging.ram.entry v.paging.active.frame := by
        have hrole := (h.layout.userTable _ h.layout.active _ hpdi e he).1
        rw [← hr]
        exact entry_kept (Ram.entry_setEntry Entry.fits_none) hrole h.layout.active_dir (by simp)
      obtain ⟨own', hinv⟩ := h.reached hrun
      obtain ⟨s, hs, hrest, hactive, hkept⟩ := ih hinv hclear ((congrFun hdir pdi).trans he)
      exact ⟨s, by simp [clearTable, hfree, hentry, hs], hrun.trans hrest, hactive,
        hkept.trans hdir⟩

/-- The outer loop clears its entries of the directory. -/
theorem clearTables_run {l : List Nat} (hl : ∀ pdi ∈ l, pdi < kernelPdFirst) (h : Inv own v)
    (hclear : v.clearing = none) : ∃ s held, v.paging.clearTables l = some s ∧
      Reached Step v { v with paging := s, held } ∧ s.active = v.paging.active ∧
      ∀ k, s.ram.entry v.paging.active.frame k =
        if k ∈ l then none else v.paging.ram.entry v.paging.active.frame k := by
  induction l generalizing own v with
  | nil => exact ⟨v.paging, v.held, rfl, .start, rfl, fun k => by simp⟩
  | cons pdi l ih =>
    obtain ⟨hpdi, hl⟩ := forall_mem_cons.mp hl
    cases he : v.paging.ram.entry v.paging.active.frame pdi with
    | none =>
      obtain ⟨s, held, hs, hrun, hactive, hdir⟩ := ih hl h hclear
      refine ⟨s, held, by simp [clearTables, load, h.layout.page_pd, he, hs], hrun, hactive,
        fun k => ?_⟩
      grind
    | some e =>
      obtain ⟨s1, hs1, hrun, hactive, hdir⟩ := clearTable_run (range 1024) hpdi h hclear he
      obtain ⟨own1, h1⟩ := h.reached hrun
      replace hclear : v.pending s1.active.frame = none := by rw [hactive]; exact hclear
      generalize hr : s1.ram.setEntry s1.active.frame pdi none = r
      have hdrop : s1.dropTable pdi = some (e.frame, { s1 with ram := r }) := by
        have he1 : s1.ram.entry s1.active.frame pdi = some e := by rw [hactive, hdir, he]
        simp [Paging.dropTable, load, store, h1.layout.page_pd, he1, hr]
      have hrun := hrun.step _ (.dropTable hpdi hclear hdrop)
      obtain ⟨own2, h2⟩ := h.reached hrun
      obtain ⟨m, hm, -⟩ := h2.layout.freeFrame (h2.held e.frame (Set.mem_insert _ _))
      have hrun := hrun.step _ (.giveFrame (f := e.frame) (Set.mem_insert _ _) hm)
      obtain ⟨own3, h3⟩ := h.reached hrun
      obtain ⟨s, held, hs, hrest, hactive', hdir'⟩ := ih hl h3 hclear
      refine ⟨s, held, ?_, hrun.trans hrest, hactive'.trans hactive, fun k => ?_⟩
      · simp [clearTables, load, h.layout.page_pd, he, hs1, hdrop, hm, hs]
      · rw [← hactive, hdir', ← hr, Ram.entry_setEntry Entry.fits_none, hactive, hdir]
        grind

/-! ## Every run -/

/-- What `vmm_init` leaves: one directory, with nothing in its user's half, which can be
reached, and tables that are frames of their own. -/
structure Start (v : Vm) : Prop where
  ok : v.paging.pmm.Ok
  spaces : v.paging.spaces = [v.paging.kernelSpace]
  active : v.paging.active = v.paging.kernelSpace
  dir : v.paging.pmm.Taken v.paging.kernelSpace.frame
  self : v.paging.ram.entry v.paging.kernelSpace.frame recursivePdIndex =
    some ⟨v.paging.kernelSpace.frame, true, false, false⟩
  area : v.paging.ram.entry v.paging.kernelSpace.frame ptAreaIndex =
    some ⟨v.paging.kernelSpace.frame, true, false, false⟩
  user : ∀ i < kernelPdFirst, v.paging.ram.entry v.paging.kernelSpace.frame i = none
  table : ∀ i, kernelPdFirst ≤ i → i < ptAreaIndex → ∀ e,
    v.paging.ram.entry v.paging.kernelSpace.frame i = some e →
      v.paging.pmm.Taken e.frame ∧ e.frame ≠ v.paging.kernelSpace.frame
  tables : ∀ i j, kernelPdFirst ≤ i → i < ptAreaIndex → kernelPdFirst ≤ j → j < ptAreaIndex →
    ∀ e e', v.paging.ram.entry v.paging.kernelSpace.frame i = some e →
      v.paging.ram.entry v.paging.kernelSpace.frame j = some e' → e.frame = e'.frame → i = j
  window : v.paging.Window v.paging.kernelSpace
  held : v.held = ∅
  pages : v.made = [] ∧ v.gone = []
  pending : ∀ f, v.pending f = none

/-- The entry of the kernel's directory that a frame is the table of. -/
def tableIndex (v : Vm) (f : Nat) : Option Nat :=
  (List.range' kernelPdFirst (ptAreaIndex - kernelPdFirst)).find? fun i =>
    (v.paging.ram.entry v.paging.kernelSpace.frame i).map Entry.frame == some f

/-- The roles at the start. -/
def startRoles (v : Vm) : Roles := fun f =>
  if f = v.paging.kernelSpace.frame then some .dir else (v.tableIndex f).map .kernelTable

theorem tableIndex_some {f i : Nat} (h : v.tableIndex f = some i) :
    kernelPdFirst ≤ i ∧ i < ptAreaIndex ∧
      ∃ e, v.paging.ram.entry v.paging.kernelSpace.frame i = some e ∧ e.frame = f := by
  have hmem := mem_range'_1.mp (mem_of_find?_eq_some h)
  have hpred := find?_some h
  obtain ⟨e, he, hframe⟩ := map_eq_some_iff.mp (eq_of_beq hpred)
  exact ⟨hmem.1, by omega, e, he, hframe⟩

theorem tableIndex_isSome {i : Nat} {e : Entry} (hlo : kernelPdFirst ≤ i) (hhi : i < ptAreaIndex)
    (he : v.paging.ram.entry v.paging.kernelSpace.frame i = some e) :
    (v.tableIndex e.frame).isSome = true := by
  rw [tableIndex, find?_isSome]
  refine ⟨i, mem_range'_1.mpr ⟨hlo, by omega⟩, ?_⟩
  rw [he, map_some, beq_self_eq_true]

theorem Start.inv (h : Start v) : Inv (startRoles v) v := by
  have hall {P : Space → Prop} (hP : P v.paging.kernelSpace) :
      ∀ p ∈ v.paging.spaces ++ v.pages, P p := by
    rw [h.spaces, Vm.pages, h.pages.1, h.pages.2]
    exact forall_mem_singleton.mpr hP
  have hlist {P : Space → Prop} (hP : P v.paging.kernelSpace) : ∀ p ∈ v.paging.spaces, P p :=
    fun p hp => hall hP p (mem_append_left _ hp)
  have htable : ∀ i, kernelPdFirst ≤ i → i < ptAreaIndex → ∀ e,
      v.paging.ram.entry v.paging.kernelSpace.frame i = some e →
      startRoles v e.frame = some (.kernelTable i) := by
    intro i hlo hhi e he
    rw [startRoles, if_neg (h.table i hlo hhi e he).2]
    obtain ⟨j, hj⟩ := Option.isSome_iff_exists.mp (tableIndex_isSome hlo hhi he)
    obtain ⟨hlo', hhi', e', he', hframe⟩ := tableIndex_some hj
    rw [hj, h.tables j i hlo' hhi' hlo hhi e' e he' he hframe]
    rfl
  have huser : ∀ i < kernelPdFirst, ∀ e,
      v.paging.ram.entry v.paging.kernelSpace.frame i ≠ some e := fun i hi e he => by
    rw [h.user i hi] at he
    cases he
  refine ⟨⟨⟨?_, ?_, ?_, hall (if_pos rfl), hall (lt_of_lt_of_le h.dir.2.2 h.ok.limit)⟩,
    ⟨hlist h.self, h.area, hlist fun _ _ _ => rfl, htable, hall h.window⟩,
    ⟨hlist fun i hi e he => absurd he (huser i hi e),
      hlist fun i hi e he => absurd he (huser i hi e)⟩, h.ok, fun f a hf => ?_⟩, ?_, ?_⟩
  · rw [h.spaces]
    exact mem_singleton_self _
  · rw [h.spaces, h.active]
    exact mem_singleton_self _
  · rw [h.spaces, Vm.pages, h.pages.1, h.pages.2]
    exact nodup_singleton _
  · rw [startRoles] at hf
    split at hf
    next hf' =>
      rw [hf']
      exact h.dir
    next =>
      obtain ⟨i, hi, -⟩ := map_eq_some_iff.mp hf
      obtain ⟨hlo, hhi, e, he, rfl⟩ := tableIndex_some hi
      exact (h.table i hlo hhi e he).1
  · rw [h.held]
    exact fun f hf => hf.elim
  · rw [h.pages.1]
    exact fun p hp => (not_mem_nil hp).elim

end Vm

theorem Vm.Inv.of_run {v₀ v : Vm} (h₀ : v₀.Start) (h : Reached Vm.Step v₀ v) :
    ∃ own, Vm.Inv own v :=
  h₀.inv.reached h

/-- In every state of every run, the kernel's entries of all directories of the list are
those of the kernel's own directory, except for the one that points at the directory
itself. -/
theorem shared_run {v₀ v : Vm} (h₀ : v₀.Start) (h : Reached Vm.Step v₀ v) :
    ∀ p ∈ v.paging.spaces, ∀ i, kernelPdFirst ≤ i → i < recursivePdIndex →
      v.paging.ram.entry p.frame i = v.paging.ram.entry v.paging.kernelSpace.frame i := by
  obtain ⟨own, hi⟩ := Vm.Inv.of_run h₀ h
  exact hi.layout.shared

/-- A small machine after `vmm_init`: frame 2 is the kernel's directory, and frame 3 the
table that maps the kernel. -/
def bootRam : Ram :=
  (((Ram.setEntry (fun _ _ => 0) 2 recursivePdIndex (some ⟨2, true, false, false⟩)).setEntry
    2 ptAreaIndex (some ⟨2, true, false, false⟩)).setEntry
    2 kernelPdFirst (some ⟨3, true, false, false⟩)).setEntry 3 2 (some ⟨2, true, false, false⟩)

def bootVm : Vm where
  paging := {
    pmm := ⟨fun f => decide (f < 4 ∨ 16 ≤ f), 16, 1, 0, 12⟩
    ram := bootRam
    kernelSpace := ⟨0xC0002000, 2⟩
    spaces := [⟨0xC0002000, 2⟩]
    active := ⟨0xC0002000, 2⟩
    slots := fun _ => false }
  held := ∅
  made := []
  gone := []
  pending := fun _ => none

theorem bootRam_entry (g k : Nat) : bootRam.entry g k =
    if g = 3 ∧ k = 2 then some ⟨2, true, false, false⟩
    else if g = 2 ∧ k = kernelPdFirst then some ⟨3, true, false, false⟩
    else if g = 2 ∧ k = ptAreaIndex then some ⟨2, true, false, false⟩
    else if g = 2 ∧ k = recursivePdIndex then some ⟨2, true, false, false⟩ else none := by
  have h2 : Entry.Fits (some ⟨2, true, false, false⟩) := Entry.fits_some (by decide)
  have h3 : Entry.Fits (some ⟨3, true, false, false⟩) := Entry.fits_some (by decide)
  rw [bootRam, Ram.entry_setEntry h2, Ram.entry_setEntry h3, Ram.entry_setEntry h2,
    Ram.entry_setEntry h2]
  rfl

theorem boot_start : bootVm.Start := by
  have hentry : ∀ i, kernelPdFirst ≤ i → i < ptAreaIndex → ∀ e, bootRam.entry 2 i = some e →
      i = kernelPdFirst ∧ e.frame = 3 := by
    intro i hlo hhi e he
    have hi : i ≠ recursivePdIndex := by
      simp only [recursivePdIndex, ptAreaIndex] at *
      omega
    rw [bootRam_entry] at he
    simp only [hi, ne_of_lt hhi, and_false, if_false] at he
    split at he
    next hc => exact absurd hc.1 (by decide)
    next =>
      obtain ⟨hc, ⟨⟩⟩ := Option.ite_none_right_eq_some.mp he
      exact ⟨hc.2, rfl⟩
  refine ⟨⟨by decide, by decide, fun f hf => ?_⟩, rfl, rfl, ⟨by decide, by decide, by decide⟩,
    ?_, ?_, fun i hi => ?_,
    fun i hlo hhi e he => ?_, fun i j hi hi' hj hj' e e' he he' _ => ?_, ?_, rfl, ⟨rfl, rfl⟩,
    fun _ => rfl⟩
  · exact decide_eq_true (.inr hf)
  · exact bootRam_entry ..
  · exact bootRam_entry ..
  · refine (bootRam_entry ..).trans ?_
    have : i ≠ kernelPdFirst ∧ i ≠ ptAreaIndex ∧ i ≠ recursivePdIndex := by
      simp only [kernelPdFirst, ptAreaIndex, recursivePdIndex] at *
      omega
    simp [this, bootVm]
  · obtain ⟨-, hframe⟩ := hentry i hlo hhi e he
    rw [hframe]
    exact ⟨⟨by decide, by decide, by decide⟩, by decide⟩
  · exact (hentry i hi hi' e he).1.trans (hentry j hj hj' e' he').1.symm
  · exact ⟨by decide, by decide, ⟨3, true, false, false⟩, ⟨2, true, false, false⟩,
      bootRam_entry .., bootRam_entry .., rfl⟩

theorem boot_unmapped (v : Nat) (hv : v < userSpaceTop) : bootVm.paging.walk v = none :=
  congrArg (bind · _) (boot_start.user (pdIndexOf v) (user_area hv).2)

/-- A second address space is made.  Entries 832 and 900 of the kernel's directory are free. -/
theorem boot_create : ∃ s, Reached Vm.Step bootVm { bootVm with paging := s } ∧
    s.kernelSpace = ⟨0xC0002000, 2⟩ ∧ s.active = ⟨0xC0002000, 2⟩ ∧
    s.spaces = [⟨0xE2000000, 4⟩, ⟨0xC0002000, 2⟩] ∧ s.allocFrame.1 ≠ 0 ∧
    s.ram.entry 2 832 = none ∧ s.ram.entry 2 900 = none := by
  have halloc : (bootVm.paging.kpageAlloc.map fun x => ((x.1, x.2.ram.entry 2 832,
      x.2.ram.entry 2 900), x.2.kernelSpace, x.2.active, x.2.spaces, x.2.allocFrame.1)) =
      some ((some ⟨0xE2000000, 4⟩, none, none), ⟨0xC0002000, 2⟩, ⟨0xC0002000, 2⟩,
        [⟨0xC0002000, 2⟩], 0x6000) := by
    decide +kernel
  obtain ⟨⟨x, s⟩, hs, hx⟩ := map_eq_some_iff.mp halloc
  simp only [Prod.mk.injEq] at hx
  obtain ⟨⟨rfl, hnone, hnone'⟩, hkernel, hactive, hspaces, hframe⟩ := hx
  obtain ⟨own, hinv⟩ := boot_start.inv.kpageAlloc hs
  obtain ⟨r, hr, hother, -⟩ := hinv.layout.asJoin (mem_append_left _ mem_cons_self)
    (hinv.blank _ mem_cons_self)
  have hcreate : bootVm.paging.asCreate = some (some ⟨0xE2000000, 4⟩,
      { s with ram := r, spaces := ⟨0xE2000000, 4⟩ :: s.spaces }) := by
    simp only [asCreate, hs, hr, Option.bind_some, map_some]
  have hsame := Ram.entry_congr (hother 2 (by decide))
  exact ⟨_, Vm.asCreate_run hcreate, hkernel, hactive, congrArg _ hspaces,
    ne_of_eq_of_ne hframe (by decide), (congrFun hsame 832).trans hnone,
    (congrFun hsame 900).trans hnone'⟩

/-- A page at 0xD0000000 needs a new table, whose entry is in both directories. -/
theorem shared_run_boot : ∃ v e, Reached Vm.Step bootVm v ∧ ⟨0xE2000000, 4⟩ ∈ v.paging.spaces ∧
      bootVm.paging.ram.entry 2 832 = none ∧ v.paging.ram.entry 2 832 = some e ∧
      v.paging.ram.entry 4 832 = some e := by
  obtain ⟨s, hrun, hkernel, hactive, hspaces, hframe, hnone, -⟩ := boot_create
  obtain ⟨own, hinv⟩ := Vm.Inv.of_run boot_start hrun
  obtain ⟨ok, s', hs, ⟨-, -, hno⟩ | ⟨-, own1, s1, hm⟩⟩ :=
    hinv.layout.mapPage 0x8000 ⟨true, false, false⟩ (show 0xD0000000 < _ by decide) (by decide)
  · have hwalk : s.walk 0xD0000000 = none := by
      rw [walk, hactive]
      exact congrArg (bind · _) hnone
    rcases hno with hno | hno | hno
    · exact absurd hno (by decide)
    · rw [hwalk] at hno
      cases hno
    · exact absurd hno hframe
  · have hstep := hrun.step _ (@Vm.Step.mapKernel _ 0xD0000000 0x8000 _ _ _
      ⟨by decide, by simp [hspaces, Vm.pages, bootVm, pageSize]⟩ (by decide) hs)
    have hmem : ⟨0xE2000000, 4⟩ ∈ s'.spaces := by
      rw [congrArg spaces hm.rest, hspaces]
      exact mem_cons_self
    have hshared := shared_run boot_start hstep _ hmem 832 (by decide) (by decide)
    obtain ⟨hself, -⟩ := hm.walk (by decide)
    rw [walk, congrArg Paging.active hm.rest, hactive] at hself
    rw [congrArg kernelSpace hm.rest, hkernel] at hshared
    obtain ⟨e, he, -⟩ := bind_eq_some_iff.mp hself
    exact ⟨_, e, hstep, hmem, bootRam_entry .., he, hshared.trans he⟩

/-- Entry `j` of table `i` of a listed directory maps the frame `f` for the user, and is
not being cleared. -/
def Vm.UserPage (v : Vm) (p : Space) (i j f : Nat) : Prop :=
  p ∈ v.paging.spaces ∧ i < kernelPdFirst ∧ v.pending p.frame ≠ some (i, j) ∧
    ∃ t e, v.paging.ram.entry p.frame i = some t ∧ v.paging.ram.entry t.frame j = some e ∧
      e.frame = f

/-- A frame that is a page of a user is taken and in nobody's hands.  It is that one page
only, and neither a directory nor a page table. -/
def Vm.Isolated (v : Vm) : Prop :=
  ∀ p i j f, v.UserPage p i j f → v.paging.pmm.Taken f ∧ f ∉ v.held ∧
    (∀ q k l, v.UserPage q k l f → q = p ∧ k = i ∧ l = j) ∧
    (∀ q ∈ v.paging.spaces ++ v.pages, q.frame ≠ f) ∧
    ∀ q ∈ v.paging.spaces, ∀ k < ptAreaIndex, ∀ t,
      v.paging.ram.entry q.frame k = some t → t.frame ≠ f

/-- In every state of every run, the pages of the users are apart from each other, from the
tables and from the frames that anybody holds. -/
theorem user_pages_isolated {v₀ v : Vm} (h₀ : v₀.Start) (h : Reached Vm.Step v₀ v) :
    v.Isolated := by
  obtain ⟨own, hi⟩ := Vm.Inv.of_run h₀ h
  have huser : ∀ {p i j f}, v.UserPage p i j f → own f = some (.userPage p.frame i j) := by
    rintro p i j f ⟨hp, hlo, hpend, t, e, ht, he, rfl⟩
    exact hi.layout.userPage p hp i hlo t ht j e he hpend
  intro p i j f hf
  have hrole := huser hf
  refine ⟨hi.layout.used f _ hrole, fun hheld => ?_, fun q k l hq => ?_, fun q hq => ?_,
    fun q hq k hk t ht => ?_⟩
  · exact role_ne hrole (hi.held f hheld) (by simp) rfl
  · have hsame := (huser hq).symm.trans hrole
    simp only [Option.some.injEq, Role.userPage.injEq] at hsame
    have hnodup := (map_append ▸ hi.layout.nodup).of_append_left
    exact ⟨inj_on_of_nodup_map hnodup hq.1 hf.1 hsame.1, hsame.2⟩
  · exact role_ne (hi.layout.dir q hq) hrole (by simp)
  · obtain ⟨a, ha, -, htable⟩ := (hi.layout.activate hq).table_role hk ht
    refine role_ne ha hrole ?_
    rintro rfl
    exact htable

/-- A frame is taken and mapped for the user. -/
theorem boot_user_page : ∃ v, Reached Vm.Step bootVm v ∧ v.clearing = none ∧
    v.UserPage ⟨0xC0002000, 2⟩ 1 0 4 ∧ (v.paging.walk 0x400000).isSome = true := by
  have hmap : (bootVm.paging.allocFrame.2.mapPage 0x400000 0x4000 ⟨true, true, false⟩).map
      (fun x => (x.1, x.2.spaces, x.2.ram.entry 2 1, x.2.ram.entry 5 0, x.2.walk 0x400000)) =
      some (true, [⟨0xC0002000, 2⟩], some ⟨5, true, true, false⟩, some ⟨4, true, true, false⟩,
        some ⟨4, true, true, false⟩) := by
    decide +kernel
  obtain ⟨⟨ok, s⟩, hs, hx⟩ := map_eq_some_iff.mp hmap
  simp only [Prod.mk.injEq] at hx
  obtain ⟨rfl, hspaces, ht, he, hwalk⟩ := hx
  have hrun : Reached Vm.Step bootVm _ := .step _ .start (.takeFrame rfl)
  have hrun := hrun.step _ (@Vm.Step.mapUser _ 0x400000 0x4000 _ _ _ (by decide)
    (.inr (by decide +kernel)) rfl hs)
  refine ⟨_, hrun, rfl, ⟨?_, by decide, nofun, _, _, ht, he, rfl⟩, ?_⟩
  · rw [hspaces]
    exact mem_cons_self
  · rw [hwalk]
    rfl

theorem user_pages_isolated_boot : ∃ v, Reached Vm.Step bootVm v ∧
    v.UserPage ⟨0xC0002000, 2⟩ 1 0 4 ∧ v.Isolated := by
  obtain ⟨v, hrun, -, hpage, -⟩ := boot_user_page
  exact ⟨v, hrun, hpage, user_pages_isolated boot_start hrun⟩

/-- While nobody else clears the active address space, `vmm_as_clear_user` does not fail,
and it leaves no page of the user. -/
theorem as_clear_user_clears {v₀ v : Vm} (h₀ : v₀.Start) (h : Reached Vm.Step v₀ v)
    (hclear : v.clearing = none) : ∃ s held, v.paging.asClearUser = some s ∧
      Reached Vm.Step v { v with paging := s, held } ∧
      ∀ virt < userSpaceTop, s.walk virt = none := by
  obtain ⟨own, hi⟩ := Vm.Inv.of_run h₀ h
  obtain ⟨s, held, hs, hrun, hactive, hdir⟩ :=
    Vm.clearTables_run (fun _ hk => mem_range.mp hk) hi hclear
  refine ⟨s, held, hs, hrun, fun virt hvirt => ?_⟩
  rw [walk, hactive, hdir, if_pos (mem_range.mpr (user_area hvirt).2), Option.bind_none]

theorem as_clear_user_clears_boot : ∃ v s, Reached Vm.Step bootVm v ∧
    (v.paging.walk 0x400000).isSome = true ∧ v.paging.asClearUser = some s ∧
    s.walk 0x400000 = none := by
  obtain ⟨v, hrun, hclear, -, hsome⟩ := boot_user_page
  obtain ⟨s, -, hs, -, hwalk⟩ := as_clear_user_clears boot_start hrun hclear
  exact ⟨v, s, hrun, hsome, hs, hwalk _ (by decide)⟩

/-- A page mapped in the area of the page tables is an entry of the kernel's own
directory only. -/
theorem shared_fails_in_area : ∃ v s, Reached Vm.Step bootVm v ∧
      v.paging.mapPage 0xFFB84000 0x5000 ⟨true, false, false⟩ = some (true, s) ∧
      ⟨0xE2000000, 4⟩ ∈ s.spaces ∧ s.ram.entry 4 900 ≠ s.ram.entry s.kernelSpace.frame 900 := by
  obtain ⟨s, hrun, hkernel, -, hspaces, -, -, hnone⟩ := boot_create
  obtain ⟨own, hinv⟩ := Vm.Inv.of_run boot_start hrun
  have hmem : ⟨0xE2000000, 4⟩ ∈ s.spaces := by
    rw [hspaces]
    exact mem_cons_self
  have hshared := hinv.layout.shared _ hmem 900 (by decide) (by decide)
  have hK : s.ram.entry s.kernelSpace.frame 900 = none := by
    rw [hkernel]
    exact hnone
  refine ⟨_, _, hrun, hinv.layout.mapPageLocked_area (t := 5) 2 (by decide) hK, hmem, ?_⟩
  have hfits : Entry.Fits (some ⟨5, true, false, false⟩) := Entry.fits_some (by decide)
  have hne : ¬ (4 = s.kernelSpace.frame ∧ 900 = 900) := by
    rw [hkernel]
    decide
  rw [Ram.entry_setEntry hfits, Ram.entry_setEntry hfits, if_neg hne, if_pos ⟨rfl, rfl⟩, hshared,
    hK]
  nofun

end ManiOS.Mm
