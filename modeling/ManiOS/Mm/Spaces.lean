import ManiOS.Mm.Ram

/-!
# Address spaces

Every process has a page directory of its own.  The kernel reads and writes
directories and tables through addresses that are mapped themselves: the last
entry of a directory points at the directory, so the tables of the active address
space are at fixed addresses, and each directory has a page in the kernel's half.
The entries of that half are the same in all directories: a new page table for
kernel addresses is written into each.

`Paging` is the state of `paging.c` with physical memory.  All accesses go through
the page tables, as the processor does it.  `none` is a panic, which a page fault in
the kernel is too.
-/

namespace ManiOS.Mm

def userSpaceTop : Nat := 0xC0000000

def kernelPtAreaStart : Nat := 0xFF800000

def recursivePdIndex : Nat := 1023

/-- `KERNEL_PT_AREA_START >> 22`. -/
def ptAreaIndex : Nat := 1022

def kernelPdFirst : Nat := 768

def recursivePtBase : Nat := 0xFFC00000

def recursivePdAddr : Nat := 0xFFFFF000

variable (virt : Nat)

def pdIndexOf : Nat := virt / 4194304

def ptIndexOf : Nat := virt / pageSize % 1024

/-- `struct address_space`: the kernel address of the page directory, and its frame. -/
structure Space where
  pd : Nat
  frame : Nat
deriving DecidableEq, Repr

/-- The flags of `vmm_map_page`. -/
structure MapFlags where
  writable : Bool
  user : Bool
  uncached : Bool
deriving DecidableEq, Repr

/-- The variables of `paging.c` and `kpage.c`, and memory.  `spaces` is the list
`all_spaces`, and `slots` says which pages of `kpage.c` are in use. -/
structure Paging where
  pmm : Pmm
  ram : Ram
  kernelSpace : Space
  spaces : List Space
  active : Space
  slots : Nat → Bool

namespace Paging

/-! ## Access through the page tables -/

variable (s : Paging)

/-- The entry that maps a page of the active address space. -/
def walk : Option Entry :=
  (s.ram.entry s.active.frame (pdIndexOf virt)).bind fun pde =>
    s.ram.entry pde.frame (ptIndexOf virt)

def page : Option Nat := (s.walk virt).map Entry.frame

/-- The entry at index `i` of the table at a page. -/
def load (virt i : Nat) (s : Paging) : Option (Option Entry) :=
  (s.page virt).map fun f => s.ram.entry f i

def store (virt i : Nat) (x : Option Entry) (s : Paging) : Option Paging :=
  (s.page virt).map fun f => { s with ram := s.ram.setEntry f i x }

/-- `memset` of a page with zeros. -/
def clear : Option Paging :=
  (s.page virt).map fun f => { s with ram := s.ram.zero f }

def pageTable (pdi : Nat) : Nat := recursivePtBase + pdi * pageSize

/-- The address of `kernel_page_tables` for an entry of the directory. -/
def kernelPageTable (pdi : Nat) : Nat := kernelPtAreaStart + pdi * pageSize

/-! ## Mapping -/

def allocFrame : Nat × Paging :=
  (s.pmm.allocFrame.1, { s with pmm := s.pmm.allocFrame.2 })

def freeFrame (phys : Nat) (s : Paging) : Option Paging :=
  (s.pmm.freeFrame phys).map ({ s with pmm := · })

/-- An entry is written into every directory of a list. -/
def storeAll (pdi : Nat) (x : Option Entry) : List Space → Paging → Option Paging
  | [], s => some s
  | p :: ps, s => (s.store p.pd pdi x).bind (storeAll pdi x ps)

/-- The part of `map_page_locked` that makes a page table.  A table for kernel addresses
is mapped first, at an address of its own. -/
def makeTable (mapTable : Nat → Nat → Paging → Option (Bool × Paging)) (pdi : Nat) (user : Bool)
    (s : Paging) : Option (Bool × Paging) :=
  let (table, s) := s.allocFrame
  if table = 0 then some (false, s)
  else
    let pde : Entry := ⟨table / pageSize, true, user, false⟩
    if kernelPdFirst ≤ pdi then
      (mapTable (kernelPageTable pdi) table s).bind fun (ok, s) =>
        if ok then
          (s.clear (kernelPageTable pdi)).bind fun s =>
            (s.storeAll pdi (some pde) s.spaces).map ((true, ·))
        else (s.freeFrame table).map ((false, ·))
    else
      (s.store recursivePdAddr pdi (some pde)).bind fun s =>
        (s.clear (pageTable pdi)).map ((true, ·))

/-- The part of `map_page_locked` that stores the entry of the page. -/
def storePage (pdi pti phys : Nat) (flags : MapFlags) (s : Paging) : Option (Bool × Paging) :=
  (s.load (pageTable pdi) pti).bind fun pte =>
    if pte.isSome then some (false, s)
    else
      (s.store (pageTable pdi) pti
        (some ⟨phys / pageSize, flags.writable, flags.user, flags.uncached⟩)).map ((true, ·))

/-- `map_page_locked`, with a bound on the depth of the recursion. -/
def mapPageLocked : Nat → Nat → Nat → MapFlags → Paging → Option (Bool × Paging)
  | 0, _, _, _, _ => none
  | n + 1, virt, phys, flags, s =>
    let pdi := pdIndexOf virt
    let pti := ptIndexOf virt
    if virt % pageSize ≠ 0 ∨ phys % pageSize ≠ 0 ∨ pdi = recursivePdIndex ∨
        flags.user ≠ decide (virt < userSpaceTop) then
      some (false, s)
    else
      (s.load recursivePdAddr pdi).bind fun pde =>
        if pde.isSome then s.storePage pdi pti phys flags
        else
          (s.makeTable (fun virt phys => mapPageLocked n virt phys ⟨true, false, false⟩) pdi
            flags.user).bind fun (ok, s) =>
            if ok then s.storePage pdi pti phys flags else some (false, s)

/-- `vmm_map_page`.  The call that maps a page table makes no other one. -/
def mapPage (virt phys : Nat) (flags : MapFlags) (s : Paging) : Option (Bool × Paging) :=
  s.mapPageLocked 3 virt phys flags

/-- `pte_of`: the entry of a page, if it is present. -/
def pteOf : Option (Option Entry) :=
  (s.load recursivePdAddr (pdIndexOf virt)).bind fun pde =>
    if pde.isSome then s.load (pageTable (pdIndexOf virt)) (ptIndexOf virt) else some none

/-- An entry that is present is replaced. -/
def change (x : Entry → Option Entry) (s : Paging) : Option (Option Entry × Paging) :=
  (s.pteOf virt).bind fun
    | some pte =>
      if pdIndexOf virt = recursivePdIndex then some (none, s)
      else (s.store (pageTable (pdIndexOf virt)) (ptIndexOf virt) (x pte)).map ((some pte, ·))
    | none => some (none, s)

/-- `vmm_unmap_page`: the frame that the page was mapped to. -/
def unmapPage : Option (Option Nat × Paging) :=
  (s.change virt fun _ => none).map fun (pte, s) => (pte.map Entry.frame, s)

def setWritable (writable : Bool) (s : Paging) : Option (Bool × Paging) :=
  (s.change virt fun pte => some { pte with writable }).map fun (pte, s) => (pte.isSome, s)

/-- `vmm_translate`, without the offset in the page. -/
def translate : Option (Option Nat) :=
  (s.pteOf virt).map (Option.map Entry.frame)

/-! ## Kernel pages -/

def kernelPagesStart : Nat := 0xE2000000

def kernelPageSlots : Nat := 4096

def slotAddr (i : Nat) : Nat := kernelPagesStart + i * pageSize

def freeSlot : Option Nat :=
  (List.range kernelPageSlots).find? fun i => !s.slots i

/-- `kpage_alloc`: a page of zeros, as its kernel address and its frame. -/
def kpageAlloc : Option (Option Space × Paging) :=
  match s.freeSlot with
  | none => some (none, s)
  | some i =>
    let va := slotAddr i
    let (phys, s) := s.allocFrame
    if phys = 0 then some (none, s)
    else
      (s.mapPage va phys ⟨true, false, false⟩).bind fun (ok, s) =>
        if ok then
          (clear va { s with slots := Function.update s.slots i true }).map
            ((some ⟨va, phys / pageSize⟩, ·))
        else (s.freeFrame phys).map ((none, ·))

def slotOf (va : Nat) : Nat := (va - kernelPagesStart) / pageSize

/-- The first part of `kpage_free`: the page is unmapped. -/
def kpageUnmap (va : Nat) (s : Paging) : Option (Nat × Paging) :=
  if va < kernelPagesStart ∨ va % pageSize ≠ 0 ∨ kernelPageSlots ≤ slotOf va ∨
      s.slots (slotOf va) = false then none
  else
    (s.unmapPage va).bind fun (phys, s) => phys.map fun f => (f, s)

/-- The last part of `kpage_free`, when the frame is given back. -/
def kpageRelease (va : Nat) (s : Paging) : Paging :=
  { s with slots := Function.update s.slots (slotOf va) false }

/-! ## Address spaces -/

/-- Entries of the kernel's directory are copied to another one. -/
def copyEntries (p : Space) : List Nat → Paging → Option Paging
  | [], s => some s
  | i :: is, s =>
    (s.load s.kernelSpace.pd i).bind fun x => (s.store p.pd i x).bind (copyEntries p is)

/-- The part of `vmm_as_create` that cannot be interrupted: the kernel's entries are
copied, and the address space joins the list. -/
def asJoin (p : Space) (s : Paging) : Option Paging :=
  (s.copyEntries p (List.range' kernelPdFirst (recursivePdIndex - kernelPdFirst))).bind fun s =>
    (s.store p.pd recursivePdIndex (some ⟨p.frame, true, false, false⟩)).bind fun s =>
      (s.copyEntries p [ptAreaIndex]).map fun s => { s with spaces := p :: s.spaces }

/-- `vmm_as_create`, when it is not interrupted. -/
def asCreate : Option (Option Space × Paging) :=
  s.kpageAlloc.bind fun
    | (none, s) => some (none, s)
    | (some p, s) => (s.asJoin p).map ((some p, ·))

def asActivate (p : Space) (s : Paging) : Paging := { s with active := p }

/-- The first thing that `vmm_as_clear_user` does to an entry of a table: the frame of a
page is given back. -/
def freePage (pdi pti : Nat) (s : Paging) : Option (Bool × Paging) :=
  (s.load (pageTable pdi) pti).bind fun
    | some pte => (s.freeFrame (pte.frame * pageSize)).map ((true, ·))
    | none => some (false, s)

/-- The second thing: the entry is cleared. -/
def clearEntry (pdi pti : Nat) (s : Paging) : Option Paging := s.store (pageTable pdi) pti none

/-- The entry of a table is cleared, and its frame is still to be given back. -/
def dropTable (pdi : Nat) (s : Paging) : Option (Nat × Paging) :=
  (s.load recursivePdAddr pdi).bind fun pde =>
    pde.bind fun pde => (s.store recursivePdAddr pdi none).map ((pde.frame, ·))

/-- The inner loop of `vmm_as_clear_user`. -/
def clearTable (pdi : Nat) : List Nat → Paging → Option Paging
  | [], s => some s
  | pti :: l, s =>
    (s.freePage pdi pti).bind fun (present, s) =>
      if present then (s.clearEntry pdi pti).bind (clearTable pdi l) else clearTable pdi l s

/-- The outer loop of `vmm_as_clear_user`. -/
def clearTables : List Nat → Paging → Option Paging
  | [], s => some s
  | pdi :: l, s =>
    (s.load recursivePdAddr pdi).bind fun pde =>
      if pde.isNone then clearTables l s
      else
        (s.clearTable pdi (List.range 1024)).bind fun s =>
          (s.dropTable pdi).bind fun (table, s) =>
            (s.freeFrame (table * pageSize)).bind (clearTables l)

/-- `vmm_as_clear_user`, when it is not interrupted. -/
def asClearUser : Option Paging := s.clearTables (List.range kernelPdFirst)

/-- The part of `vmm_as_destroy` that cannot be interrupted. -/
def asUnlink (p : Space) (s : Paging) : Option Paging :=
  if p = s.active ∨ p = s.kernelSpace ∨ p ∉ s.spaces then none
  else some { s with spaces := s.spaces.erase p }

/-- `vmm_as_destroy`, when it is not interrupted. -/
def asDestroy (p : Space) (s : Paging) : Option Paging :=
  (s.asUnlink p).bind fun s =>
    (s.kpageUnmap p.pd).bind fun (frame, s) =>
      (s.freeFrame (frame * pageSize)).map (kpageRelease p.pd)

/-! ## The fixed addresses of the tables -/

/-- The directory is its own last table, so that the kernel can read the tables. -/
def Recursive : Prop :=
  ∃ e, s.ram.entry s.active.frame recursivePdIndex = some e ∧ e.frame = s.active.frame

variable {s : Paging} {i : Nat}

theorem pdIndexOf_pageTable (hi : i < 1024) : pdIndexOf (pageTable i) = recursivePdIndex := by
  simp only [pdIndexOf, pageTable, recursivePtBase, pageSize, recursivePdIndex]
  omega

theorem ptIndexOf_pageTable (hi : i < 1024) : ptIndexOf (pageTable i) = i := by
  simp only [ptIndexOf, pageTable, recursivePtBase, pageSize]
  omega

theorem Recursive.page_pd (h : s.Recursive) : s.page recursivePdAddr = some s.active.frame := by
  obtain ⟨e, he, hframe⟩ := h
  have hpd : pdIndexOf recursivePdAddr = recursivePdIndex := by decide
  have hpt : ptIndexOf recursivePdAddr = recursivePdIndex := by decide
  rw [page, walk, hpd, hpt, he, Option.bind_some, hframe, he, Option.map_some, hframe]

theorem Recursive.page_pageTable (h : s.Recursive) (hi : i < 1024) :
    s.page (pageTable i) = (s.ram.entry s.active.frame i).map Entry.frame := by
  obtain ⟨e, he, hframe⟩ := h
  rw [page, walk, pdIndexOf_pageTable hi, ptIndexOf_pageTable hi, he, Option.bind_some, hframe]

end Paging

end ManiOS.Mm
