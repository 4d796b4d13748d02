import ManiOS.Mm.Contents
import ManiOS.Mm.Shared

/-!
# Loading a program

`elf_load` maps the segments of an executable into the active address space, which has
no user pages yet.  The file can hold anything.  Where the loader would read a byte
outside of it, the functions here return `none`, as for a page fault in the kernel.

The segments are loaded in the order of the file.  Pages are mapped writable; those
that only segments without `PF_W` use become read-only at the end.
-/

namespace ManiOS.Elf

open Mm Mm.Paging List
open Option (bind_some map_some getD_some)

/-! ## The file -/

/-- The bytes of a file. -/
abbrev Image := List UInt8

def slice (off n : Nat) (image : Image) : Option (List UInt8) :=
  if off + n ≤ image.length then some ((image.drop off).take n) else none

/-- The value of bytes in little-endian order. -/
def leBytes : List UInt8 → Nat
  | [] => 0
  | b :: bs => b.toNat + 256 * leBytes bs

def number (n off : Nat) (image : Image) : Option Nat := (slice off n image).map leBytes

/-- `struct elf_header`, without the fields that are not looked at. -/
structure Header where
  ident : List UInt8
  type : Nat
  machine : Nat
  entry : Nat
  phoff : Nat
  phentsize : Nat
  phnum : Nat

def headerSize : Nat := 52

def Header.read (image : Image) : Option Header := do
  let ident ← slice 0 16 image
  let type ← number 2 16 image
  let machine ← number 2 18 image
  let entry ← number 4 24 image
  let phoff ← number 4 28 image
  let phentsize ← number 2 42 image
  let phnum ← number 2 44 image
  return ⟨ident, type, machine, entry, phoff, phentsize, phnum⟩

/-- `struct elf_phdr`, without the fields that are not looked at. -/
structure Phdr where
  type : Nat
  offset : Nat
  vaddr : Nat
  filesz : Nat
  memsz : Nat
  flags : Nat
deriving DecidableEq, Repr

def phdrSize : Nat := 32

def Phdr.read (off : Nat) (image : Image) : Option Phdr := do
  let type ← number 4 off image
  let offset ← number 4 (off + 4) image
  let vaddr ← number 4 (off + 8) image
  let filesz ← number 4 (off + 16) image
  let memsz ← number 4 (off + 20) image
  let flags ← number 4 (off + 24) image
  return ⟨type, offset, vaddr, filesz, memsz, flags⟩

/-- The program headers, from `off` on. -/
def phdrs (image : Image) (off : Nat) : Nat → Option (List Phdr)
  | 0 => some []
  | n + 1 =>
    (Phdr.read off image).bind fun p => (phdrs image (off + phdrSize) n).map (p :: ·)

/-- `valid_header`, for a file that has a header. -/
def Header.Valid (h : Header) (size : Nat) : Prop :=
  h.ident.take 4 = [0x7f, 0x45, 0x4c, 0x46] ∧ h.ident[4]? = some 1 ∧ h.ident[5]? = some 1 ∧
    h.ident[6]? = some 1 ∧ h.type = 2 ∧ h.machine = 3 ∧ h.phentsize = phdrSize ∧ 0 < h.phnum ∧
    h.phoff < size ∧ h.phnum ≤ (size - h.phoff) / phdrSize

instance (h : Header) (size : Nat) : Decidable (h.Valid size) :=
  inferInstanceAs (Decidable (_ ∧ _))

def userImageMin : Nat := 0x1000

/-- A segment that is loaded: `PT_LOAD`, and not empty. -/
def Phdr.Loadable (p : Phdr) : Prop := p.type = 1 ∧ p.memsz ≠ 0

instance (p : Phdr) : Decidable p.Loadable := inferInstanceAs (Decidable (_ ∧ _))

/-- The segment has `PF_W`. -/
def Phdr.Writable (p : Phdr) : Prop := p.flags &&& 2 ≠ 0

instance (p : Phdr) : Decidable p.Writable := inferInstanceAs (Decidable (_ ≠ _))

/-- `valid_segment`. -/
def Phdr.Valid (p : Phdr) (size : Nat) : Prop :=
  p.filesz ≤ p.memsz ∧ p.offset ≤ size ∧ p.filesz ≤ size - p.offset ∧ userImageMin ≤ p.vaddr ∧
    p.vaddr < userImageTop ∧ p.memsz ≤ userImageTop - p.vaddr

instance (p : Phdr) (size : Nat) : Decidable (p.Valid size) := inferInstanceAs (Decidable (_ ∧ _))

/-! ## The version -/

/-- `ZKT_NOTE_NAME`, with the NUL. -/
def noteName : List UInt8 := [0x5a, 0x4b, 0x54, 0]

/-- A length, padded to four bytes. -/
def padded (n : Nat) : Nat := u32 (n + 3) / 4 * 4

/-- The loop over the notes of a segment, with a bound on their number. -/
def noteVersion (image : Image) : Nat → Nat → Nat → Option (Option Nat)
  | 0, _, _ => none
  | n + 1, note, left =>
    if left < 12 then some none
    else do
      let namesz ← number 4 note image
      let descsz ← number 4 (note + 4) image
      let type ← number 4 (note + 8) image
      let left := left - 12
      if left < namesz ∨ left < descsz then some none
      else
        let nameLen := padded namesz
        let descLen := padded descsz
        if left < nameLen ∨ left - nameLen < descLen then some none
        else
          let next := noteVersion image n (note + 12 + nameLen + descLen)
            (left - (nameLen + descLen))
          if type = 1 ∧ namesz = noteName.length then
            let name ← slice (note + 12) namesz image
            if name = noteName ∧ descsz = 4 then
              (number 4 (note + 12 + nameLen) image).map some
            else next
          else next

def abiVersion (image : Image) : List Phdr → Option Nat
  | [] => some 0
  | p :: l =>
    if p.type ≠ 4 ∨ image.length < p.offset ∨ image.length - p.offset < p.filesz then
      abiVersion image l
    else
      (noteVersion image (p.filesz + 1) p.offset p.filesz).bind fun
        | some version => some version
        | none => abiVersion image l

/-! ## The segments -/

/-- `map_range`, for the pages of the range: `false` is `-ENOMEM`. -/
def mapRange : List Nat → Paging → Option (Bool × Paging)
  | [], s => some (true, s)
  | page :: l, s =>
    (s.translate page).bind fun phys =>
      if phys.isSome then mapRange l s
      else
        let (frame, s) := s.allocFrame
        if frame = 0 then some (false, s)
        else
          (s.mapPage page frame userFlags).bind fun (ok, s) =>
            if ok then (s.clear page).bind (mapRange l)
            else (s.freeFrame frame).map ((false, ·))

/-- The variables of the first loop of `elf_load`. -/
structure Progress where
  entryLoaded : Bool
  imageStart : Nat
  imageEnd : Nat

/-- A segment has been loaded. -/
def Progress.next (entry : Nat) (p : Phdr) (g : Progress) : Progress where
  entryLoaded := g.entryLoaded || decide (p.vaddr ≤ entry ∧ entry - p.vaddr < p.memsz)
  imageStart := min g.imageStart (p.vaddr / pageSize * pageSize)
  imageEnd := max g.imageEnd (u32 (p.vaddr + p.memsz))

/-- The first loop of `elf_load`. -/
def loadSegments (image : Image) (entry : Nat) :
    List Phdr → Progress → Paging → Option (Except Errno Progress × Paging)
  | [], g, s => some (.ok g, s)
  | p :: l, g, s =>
    if ¬ p.Loadable then loadSegments image entry l g s
    else if ¬ p.Valid image.length then some (.error .enoexec, s)
    else
      (mapRange (pagesOf p.vaddr (u32 (p.vaddr + p.memsz))) s).bind fun (ok, s) =>
        if ok then
          (slice p.offset p.filesz image).bind fun bytes =>
            match (writeBytes bytes p.vaddr s).result with
            | some (.ok s) => loadSegments image entry l (g.next entry p) s
            | _ => none
        else some (.error .enomem, s)

def writableSegmentCovers (ph : List Phdr) (page : Nat) : Bool :=
  ph.any fun p => decide (p.Loadable ∧ p.Writable ∧ page < u32 (p.vaddr + p.memsz) ∧
    p.vaddr < u32 (page + pageSize))

/-- Pages of a segment become read-only. -/
def protectPages (ph : List Phdr) : List Nat → Paging → Option Paging
  | [], s => some s
  | page :: l, s =>
    if writableSegmentCovers ph page then protectPages ph l s
    else (s.setWritable page false).bind fun (_, s) => protectPages ph l s

/-- The second loop of `elf_load`. -/
def protectSegments (ph : List Phdr) : List Phdr → Paging → Option Paging
  | [], s => some s
  | p :: l, s =>
    if ¬ p.Loadable ∨ p.Writable then protectSegments ph l s
    else
      (protectPages ph (pagesOf p.vaddr (u32 (p.vaddr + p.memsz))) s).bind (protectSegments ph l)

/-- What `elf_load` stores for its caller. -/
structure Program where
  entry : Nat
  imageStart : Nat
  imageEnd : Nat
  abi : Nat

def elfLoad (image : Image) (s : Paging) : Option (Except Errno Program × Paging) :=
  if image.length < headerSize then some (.error .enoexec, s)
  else
    (Header.read image).bind fun h =>
      if ¬ h.Valid image.length then some (.error .enoexec, s)
      else
        (phdrs image h.phoff h.phnum).bind fun ph =>
          (abiVersion image ph).bind fun version =>
            if version < 1 ∨ 2 < version then some (.error .enoexec, s)
            else
              (loadSegments image h.entry ph ⟨false, userImageTop, userImageMin⟩ s).bind fun
                | (.error e, s) => some (.error e, s)
                | (.ok g, s) =>
                  if g.entryLoaded then
                    (protectSegments ph ph s).map fun s =>
                      (.ok ⟨h.entry, g.imageStart, g.imageEnd, version⟩, s)
                  else some (.error .enoexec, s)

variable {image : Image} {pages : List Space} {pending : Nat → Option (Nat × Nat)}
  {T : Nat → Prop} {w : Nat → Bool} {c : Nat → UInt8} {s0 s : Paging}

/-! ## No byte outside of the file is read -/

theorem number_inside (n off : Nat) (h : off + n ≤ image.length) :
    number n off image = some (leBytes ((image.drop off).take n)) := by
  rw [number, slice, if_pos h, map_some]

theorem Header.read_inside (h : headerSize ≤ image.length) :
    ∃ header, Header.read image = some header := by
  rw [headerSize] at h
  rw [Header.read, slice, if_pos (by omega), number_inside 2 16 (by omega),
    number_inside 2 18 (by omega), number_inside 4 24 (by omega), number_inside 4 28 (by omega),
    number_inside 2 42 (by omega), number_inside 2 44 (by omega)]
  exact ⟨_, rfl⟩

theorem Phdr.read_inside (off : Nat) (h : off + phdrSize ≤ image.length) :
    ∃ p, Phdr.read off image = some p := by
  rw [phdrSize] at h
  rw [Phdr.read, number_inside 4 off (by omega), number_inside 4 (off + 4) (by omega),
    number_inside 4 (off + 8) (by omega), number_inside 4 (off + 16) (by omega),
    number_inside 4 (off + 20) (by omega), number_inside 4 (off + 24) (by omega)]
  exact ⟨_, rfl⟩

theorem phdrs_inside (off n : Nat) (h : off + n * phdrSize ≤ image.length) :
    ∃ ph, phdrs image off n = some ph := by
  induction n generalizing off with
  | zero => exact ⟨[], rfl⟩
  | succ n ih =>
    rw [Nat.succ_mul] at h
    obtain ⟨p, hp⟩ := @Phdr.read_inside image off (by omega)
    obtain ⟨ph, hph⟩ := ih (off + phdrSize) (by omega)
    exact ⟨p :: ph, by rw [phdrs, hp, bind_some, hph, map_some]⟩

theorem noteVersion_inside (n note left : Nat) (hn : left < n)
    (h : note + left ≤ image.length) : ∃ r, noteVersion image n note left = some r := by
  induction n generalizing note left with
  | zero => exact absurd hn (Nat.not_lt_zero left)
  | succ n ih =>
    rw [noteVersion]
    split
    next => exact ⟨none, rfl⟩
    next hleft =>
      rw [number_inside 4 note (by omega), number_inside 4 (note + 4) (by omega),
        number_inside 4 (note + 8) (by omega)]
      generalize leBytes ((image.drop note).take 4) = namesz
      generalize leBytes ((image.drop (note + 4)).take 4) = descsz
      dsimp only [bind, Option.bind]
      split
      next => exact ⟨none, rfl⟩
      next hsizes =>
        split
        next => exact ⟨none, rfl⟩
        next hlens =>
          obtain ⟨next, hnext⟩ := ih (note + 12 + padded namesz + padded descsz)
            (left - 12 - (padded namesz + padded descsz)) (by omega) (by omega)
          rw [hnext]
          split
          next =>
            rw [slice, if_pos (by omega)]
            dsimp only
            split
            next hname =>
              have hfour : padded descsz = 4 := by rw [hname.2]; rfl
              rw [number_inside 4 (note + 12 + padded namesz) (by omega)]
              exact ⟨_, rfl⟩
            next => exact ⟨next, rfl⟩
          next => exact ⟨next, rfl⟩

theorem abiVersion_inside (ph : List Phdr) : ∃ version, abiVersion image ph = some version := by
  induction ph with
  | nil => exact ⟨0, rfl⟩
  | cons p l ih =>
    rw [abiVersion]
    split
    next => exact ih
    next hok =>
      obtain ⟨r, hr⟩ :=
        @noteVersion_inside image (p.filesz + 1) p.offset p.filesz (by omega) (by omega)
      rw [hr]
      cases r with
      | none => exact ih
      | some version => exact ⟨version, rfl⟩

/-! ## The segments are loaded -/

/-- The pages of a range that were not there are mapped, with zeros.  If there is no
memory, some of them are. -/
theorem mapRange_spec (l : List Nat)
    (hl : ∀ v ∈ l, v < userSpaceTop) (h : Contents pages pending T (fun _ => true) c s0 s)
    (hclean : ∀ v < userSpaceTop, ¬ T v → c v = 0) : ∃ ok s' T', mapRange l s = some (ok, s') ∧
      Contents pages pending T' (fun _ => true) c s0 s' ∧ (∀ v, T v → T' v) ∧
      (∀ v, T' v → T v ∨ OnPages l v) ∧ (ok = true → ∀ v, OnPages l v → T' v) := by
  induction l generalizing s T with
  | nil => exact ⟨true, s, T, rfl, h, fun _ ht => ht, fun _ ht => .inl ht,
      fun _ _ hon => (onPages_nil hon).elim⟩
  | cons v l ih =>
    have hv := hl v mem_cons_self
    have hl' := (forall_mem_cons.mp hl).2
    obtain ⟨own, hlayout⟩ := h.layout
    rw [mapRange, Paging.translate, hlayout.pteOf (user_area hv).1, map_some, bind_some]
    by_cases ht : T v
    · obtain ⟨f, hf⟩ := h.mapped v hv ht
      obtain ⟨ok, s', T', hs', h', hmono, hback, hall⟩ := ih hl' h hclean
      refine ⟨ok, s', T', ?_, h', hmono, fun u hu => ?_, fun hok u hon => ?_⟩
      · rw [hf, map_some]
        exact hs'
      · exact (hback u hu).imp_right fun hon => onPages_cons.mpr (.inr hon)
      · rcases onPages_cons.mp hon with heq | hon
        · refine hmono u (h.same_page ?_ hv heq ht)
          simp only [pageSize, userSpaceTop] at *
          omega
        · exact hall hok u hon
    · rw [h.unmapped v hv ht, if_neg (by simp)]
      obtain ⟨m, ⟨halloc, hn⟩ | ⟨f, ok, s2, halloc, hpos, hmap, hor⟩⟩ :=
        hlayout.addUserPage hv
      · rw [halloc]
        exact ⟨false, _, T, rfl, h.noFrame hn, fun _ ht => ht, fun _ ht => .inl ht, by simp⟩
      · rw [halloc]
        dsimp only
        rw [if_neg hpos, hmap, bind_some]
        rcases hor with ⟨rfl, s3, hs3, hn⟩ | ⟨rfl, s3, own3, hs3, ha⟩
        · refine ⟨false, s3, T, ?_, h.noFrame hn, fun _ ht => ht, fun _ ht => .inl ht, by simp⟩
          rw [if_neg (by simp), hs3, map_some]
        · have hzero : ∀ u, u / pageSize = v / pageSize → c u = 0 := fun u heq => by
            have hu : u < userSpaceTop := by
              simp only [pageSize, userSpaceTop] at *
              omega
            exact hclean u hu fun htu => ht (h.same_page hv hu heq.symm htu)
          have h3 := h.add hlayout ha rfl hv hzero
          obtain ⟨ok, s', T', hs', h', hmono, hback, hall⟩ := ih hl' h3 fun u hu hnot =>
            hclean u hu fun htu => hnot (.inl htu)
          refine ⟨ok, s', T', ?_, h', fun u htu => hmono u (.inl htu), fun u hu => ?_,
            fun hok u hon => ?_⟩
          · rw [hs3]
            exact hs'
          · rw [onPages_cons, ← or_assoc]
            exact hback u hu
          · rcases onPages_cons.mp hon with heq | hon
            · exact hmono u (.inr heq)
            · exact hall hok u hon

/-- The pages of a segment. -/
def Phdr.Covers (p : Phdr) (v : Nat) : Prop :=
  p.Loadable ∧ OnPages (pagesOf p.vaddr (p.vaddr + p.memsz)) v

/-- The bytes of the segments' files, one after the other over `c`. -/
def fileBytes (image : Image) : List Phdr → (Nat → UInt8) → Nat → UInt8
  | [], c => c
  | p :: l, c =>
    fileBytes image l
      (if p.Loadable then overlay c p.vaddr ((image.drop p.offset).take p.filesz) else c)

variable {p : Phdr} {v : Nat}

theorem Phdr.Valid.area (h : p.Valid image.length) : u32 (p.vaddr + p.memsz) = p.vaddr + p.memsz ∧
      (∀ v, OnPages (pagesOf p.vaddr (p.vaddr + p.memsz)) v → userImageMin ≤ v ∧ v < userImageTop) ∧
      ∀ i < p.memsz, OnPages (pagesOf p.vaddr (p.vaddr + p.memsz)) (p.vaddr + i) := by
  obtain ⟨-, -, -, hmin, htop, hmem⟩ := h
  refine ⟨u32_of_lt (by simp only [userImageTop] at *; omega), ?_, fun i hi => ?_⟩
  · rintro v ⟨u, hu, huv⟩
    obtain ⟨k, rfl, hlo, hhi⟩ := mem_pagesOf.mp hu
    simp only [pageSize, userImageMin, userImageTop] at *
    omega
  · refine ⟨(p.vaddr + i) / pageSize * pageSize, mem_pagesOf.mpr ⟨_, rfl, ?_, ?_⟩, ?_⟩
    · exact Nat.div_le_div_right (Nat.le_add_right ..)
    · simp only [pageSize]
      omega
    · exact (Nat.mul_div_cancel _ (by decide)).symm

theorem Phdr.Valid.length_file (h : p.Valid image.length) :
    ((image.drop p.offset).take p.filesz).length = p.filesz := by
  obtain ⟨-, hoff, hlen, -⟩ := h
  rw [length_take, length_drop]
  omega

/-- One segment: its pages are mapped, and its bytes are copied. -/
theorem loadSegment_spec (hvalid : p.Valid image.length)
    (h : Contents pages pending T (fun _ => true) c s0 s)
    (hclean : ∀ v < userSpaceTop, ¬ T v → c v = 0) :
    ∃ ok s1 T1, mapRange (pagesOf p.vaddr (u32 (p.vaddr + p.memsz))) s = some (ok, s1) ∧
      Contents pages pending T1 (fun _ => true) c s0 s1 ∧
      (∀ v, T1 v → T v ∨ OnPages (pagesOf p.vaddr (p.vaddr + p.memsz)) v) ∧
      (ok = true → ∃ bytes s2, slice p.offset p.filesz image = some bytes ∧
        bytes = (image.drop p.offset).take p.filesz ∧
        (writeBytes bytes p.vaddr s1).result = some (.ok s2) ∧
        Contents pages pending
          (fun v => T v ∨ OnPages (pagesOf p.vaddr (p.vaddr + p.memsz)) v) (fun _ => true)
          (overlay c p.vaddr bytes) s0 s2 ∧
        ∀ v < userSpaceTop, ¬ (T v ∨ OnPages (pagesOf p.vaddr (p.vaddr + p.memsz)) v) →
          overlay c p.vaddr bytes v = 0) := by
  obtain ⟨hend, hpages, hrange⟩ := hvalid.area
  have hlength := hvalid.length_file
  obtain ⟨hfile, hoff, hlen, -⟩ := hvalid
  have huser : userImageTop < userSpaceTop := by decide
  rw [hend]
  obtain ⟨ok, s1, T1, hs1, h1, hmono, hback, hall⟩ := mapRange_spec
    (pagesOf p.vaddr (p.vaddr + p.memsz))
    (fun v hv => lt_trans (hpages v ⟨v, hv, rfl⟩).2 huser) h hclean
  refine ⟨ok, s1, T1, hs1, h1, hback, fun hok => ?_⟩
  obtain ⟨s2, hs2, h2⟩ := h1.writeBytes (v := p.vaddr)
    ((image.drop p.offset).take p.filesz) fun i hi => by
      have hon := hrange i (by omega)
      exact ⟨lt_trans (hpages _ hon).2 huser, hall hok _ hon⟩
  refine ⟨_, s2, if_pos (by omega), rfl, hs2, h2.congr (fun v _ => ⟨?_, hback v⟩) fun _ _ _ => rfl,
    fun v hv hnot => ?_⟩
  · exact fun hor => hor.elim (hmono v) (hall hok v)
  · rw [not_or] at hnot
    rw [overlay, if_neg fun hin => hnot.2 ?_]
    · exact hclean v hv hnot.1
    · have hon := hrange (v - p.vaddr) (by omega)
      rwa [Nat.add_sub_cancel' hin.1] at hon

variable (image) in
theorem loadSegments_spec (entry : Nat) (l : List Phdr)
    (g : Progress) (h : Contents pages pending T (fun _ => true) c s0 s)
    (hclean : ∀ v < userSpaceTop, ¬ T v → c v = 0)
    (harea : ∀ v, T v → userImageMin ≤ v ∧ v < userImageTop) :
    ∃ r s' T' c', loadSegments image entry l g s = some (r, s') ∧
      Contents pages pending T' (fun _ => true) c' s0 s' ∧
      (∀ v, T' v → userImageMin ≤ v ∧ v < userImageTop) ∧
      ∀ g', r = .ok g' → (∀ p ∈ l, p.Loadable → p.Valid image.length) ∧
        (∀ v < userSpaceTop, T' v ↔ T v ∨ ∃ p ∈ l, p.Covers v) ∧ c' = fileBytes image l c := by
  induction l generalizing s T c g with
  | nil =>
    refine ⟨.ok g, s, T, c, rfl, h, harea, fun _ _ => ⟨nofun, fun v _ => ?_, rfl⟩⟩
    simp
  | cons p l ih =>
    rw [loadSegments]
    by_cases hload : p.Loadable
    · rw [if_neg (not_not_intro hload)]
      by_cases hvalid : p.Valid image.length
      · rw [if_neg (not_not_intro hvalid)]
        obtain ⟨ok, s1, T1, hs1, h1, hback, hfill⟩ := loadSegment_spec hvalid h hclean
        have hpages := hvalid.area.2.1
        rw [hs1, bind_some]
        cases ok with
        | false =>
          exact ⟨_, s1, T1, c, rfl, h1, fun v hv => (hback v hv).elim (harea v) (hpages v), nofun⟩
        | true =>
          obtain ⟨bytes, s2, hslice, hbytes, hs2, h2, hclean₂⟩ := hfill rfl
          obtain ⟨r, s', T', c', hs', h', harea', hok⟩ := ih (g.next entry p) h2 hclean₂
            fun v hv => hv.elim (harea v) (hpages v)
          refine ⟨r, s', T', c', ?_, h', harea', fun g' hr => ?_⟩
          · dsimp only
            rw [hslice, bind_some, hs2]
            exact hs'
          · obtain ⟨hvalid', hT, hc⟩ := hok g' hr
            refine ⟨forall_mem_cons.mpr ⟨fun _ => hvalid, hvalid'⟩, fun v hv => ?_, ?_⟩
            · rw [hT v hv, exists_mem_cons_iff, ← or_assoc, Phdr.Covers, and_iff_right hload]
            · rw [fileBytes, if_pos hload, ← hbytes]
              exact hc
      · rw [if_pos hvalid]
        exact ⟨_, s, T, c, rfl, h, harea, nofun⟩
    · rw [if_pos hload]
      obtain ⟨r, s', T', c', hs', h', harea', hok⟩ := ih g h hclean harea
      refine ⟨r, s', T', c', hs', h', harea', fun g' hr => ?_⟩
      obtain ⟨hvalid', hT, hc⟩ := hok g' hr
      refine ⟨forall_mem_cons.mpr ⟨fun hp => absurd hp hload, hvalid'⟩, fun v hv => ?_, ?_⟩
      · have hnot : ¬ p.Covers v := fun hcov => hload hcov.1
        rw [hT v hv, exists_mem_cons_iff, or_iff_right hnot]
      · rw [fileBytes, if_neg hload]
        exact hc

/-! ## Pages become read-only -/

theorem protectPages_spec (ph : List Phdr) (l : List Nat)
    (h : Contents pages pending T w c s0 s) (hl : ∀ v ∈ l, v < userSpaceTop ∧ T v) :
    ∃ s' w', protectPages ph l s = some s' ∧ Contents pages pending T w' c s0 s' ∧
      ∀ k, w' k = true ↔ w k = true ∧
        ∀ v ∈ l, v / pageSize = k → writableSegmentCovers ph v = true := by
  induction l generalizing s w with
  | nil => exact ⟨s, w, rfl, h, fun k => by simp⟩
  | cons v l ih =>
    obtain ⟨hv, ht⟩ := hl v mem_cons_self
    have hl' := (forall_mem_cons.mp hl).2
    rw [protectPages]
    by_cases hcov : writableSegmentCovers ph v = true
    · rw [if_pos hcov]
      obtain ⟨s', w', hs', h', hw'⟩ := ih h hl'
      refine ⟨s', w', hs', h', fun k => ?_⟩
      rw [hw', forall_mem_cons, and_iff_right fun _ => hcov]
    · rw [if_neg hcov]
      obtain ⟨ok, s1, hs1, h1⟩ := h.setReadOnly hv ht
      obtain ⟨s', w', hs', h', hw'⟩ := ih h1 hl'
      refine ⟨s', w', by rw [hs1]; exact hs', h', fun k => ?_⟩
      rw [hw', forall_mem_cons, Function.update_apply]
      by_cases hk : k = v / pageSize
      · rw [if_pos hk]
        exact iff_of_false (fun hc => nomatch hc.1) fun hc => hcov (hc.2.1 hk.symm)
      · rw [if_neg hk, and_iff_right fun heq => absurd heq.symm hk]

theorem protectSegments_spec (ph l : List Phdr)
    (h : Contents pages pending T w c s0 s)
    (hl : ∀ p ∈ l, p.Loadable → p.Valid image.length ∧ ∀ v < userSpaceTop, p.Covers v → T v) :
    ∃ s' w', protectSegments ph l s = some s' ∧ Contents pages pending T w' c s0 s' ∧
      ∀ k, w' k = true ↔ w k = true ∧ ∀ p ∈ l, p.Loadable → ¬ p.Writable →
        ∀ v ∈ pagesOf p.vaddr (p.vaddr + p.memsz), v / pageSize = k →
          writableSegmentCovers ph v = true := by
  induction l generalizing s w with
  | nil => exact ⟨s, w, rfl, h, fun k => by simp⟩
  | cons p l ih =>
    have hl' := (forall_mem_cons.mp hl).2
    rw [protectSegments]
    by_cases hskip : ¬ p.Loadable ∨ p.Writable
    · rw [if_pos hskip]
      obtain ⟨s', w', hs', h', hw'⟩ := ih h hl'
      refine ⟨s', w', hs', h', fun k => ?_⟩
      rw [hw', forall_mem_cons, and_iff_right fun hload hnot => ?_]
      exact (hskip.elim (absurd hload) fun hwritable => absurd hwritable hnot)
    · rw [if_neg hskip]
      rw [not_or, not_not] at hskip
      obtain ⟨hvalid, hcov⟩ := hl p mem_cons_self hskip.1
      obtain ⟨hend, hpages, -⟩ := hvalid.area
      rw [hend]
      obtain ⟨s1, w1, hs1, h1, hw1⟩ := protectPages_spec ph
        (pagesOf p.vaddr (p.vaddr + p.memsz)) h fun v hv => by
          have hon : OnPages (pagesOf p.vaddr (p.vaddr + p.memsz)) v := ⟨v, hv, rfl⟩
          have huser : v < userSpaceTop := lt_trans (hpages v hon).2 (by decide)
          exact ⟨huser, hcov v huser ⟨hskip.1, hon⟩⟩
      obtain ⟨s', w', hs', h', hw'⟩ := ih h1 hl'
      refine ⟨s', w', by rw [hs1]; exact hs', h', fun k => ?_⟩
      rw [hw', hw1, forall_mem_cons, and_assoc, forall_prop_of_true hskip.1,
        forall_prop_of_true hskip.2]

theorem writableSegmentCovers_iff {ph : List Phdr}
    (hvalid : ∀ p ∈ ph, p.Loadable → p.Valid image.length) (haligned : v % pageSize = 0)
    (hv : v < userImageTop) :
    writableSegmentCovers ph v = true ↔ ∃ p ∈ ph, p.Loadable ∧ p.Writable ∧
      ∃ u, u / pageSize = v / pageSize ∧ p.vaddr ≤ u ∧ u < p.vaddr + p.memsz := by
  rw [writableSegmentCovers, any_eq_true]
  refine exists_congr fun p => and_congr_right fun hp => ?_
  rw [decide_eq_true_iff]
  refine and_congr_right fun hload => and_congr_right fun _ => ?_
  have hnext : u32 (v + pageSize) = v + pageSize :=
    u32_of_lt (by simp only [pageSize, userImageTop] at *; omega)
  rw [(hvalid p hp hload).area.1]
  constructor
  · rintro ⟨hlo, hhi⟩
    refine ⟨max v p.vaddr, ?_, le_max_right .., ?_⟩
    · simp only [pageSize] at *
      omega
    · have := hload.2
      omega
  · rintro ⟨u, heq, hlo, hhi⟩
    simp only [pageSize] at *
    omega

/-! ## The whole file -/

def segments (image : Image) : List Phdr :=
  (((Header.read image).bind fun h => phdrs image h.phoff h.phnum).getD []).filter
    fun p => decide p.Loadable

/-- No two segments share an address. -/
def Disjoint (l : List Phdr) : Prop :=
  l.Pairwise fun p q => p.vaddr + p.memsz ≤ q.vaddr ∨ q.vaddr + q.memsz ≤ p.vaddr

theorem fileBytes_filter (l : List Phdr) :
    fileBytes image (l.filter fun p => decide p.Loadable) c = fileBytes image l c := by
  induction l generalizing c with
  | nil => rfl
  | cons p l ih =>
    rw [filter_cons]
    by_cases hload : p.Loadable
    · rw [if_pos (decide_eq_true hload), fileBytes, fileBytes, ih]
    · rw [if_neg fun hc => hload (of_decide_eq_true hc), fileBytes, if_neg hload, ih]

theorem fileBytes_outside (l : List Phdr)
    (hl : ∀ p ∈ l, p.Valid image.length ∧ (v < p.vaddr ∨ p.vaddr + p.memsz ≤ v)) :
    fileBytes image l c v = c v := by
  induction l generalizing c with
  | nil => rfl
  | cons p l ih =>
    obtain ⟨hvalid, hout⟩ := hl p mem_cons_self
    rw [fileBytes, ih (forall_mem_cons.mp hl).2]
    split
    next =>
      have := hvalid.1
      rw [overlay, hvalid.length_file, if_neg (by omega)]
    next => rfl

theorem fileBytes_inside (l : List Phdr) (hl : ∀ p ∈ l, p.Loadable ∧ p.Valid image.length)
    (hdisj : Disjoint l) (hp : p ∈ l) {i : Nat} (hi : i < p.memsz) (hc : c (p.vaddr + i) = 0) :
    some (fileBytes image l c (p.vaddr + i)) =
      if i < p.filesz then image[p.offset + i]? else some 0 := by
  induction l generalizing c with
  | nil => exact (not_mem_nil hp).elim
  | cons q l ih =>
    obtain ⟨hload, hvalid⟩ := hl q mem_cons_self
    have hl' := (forall_mem_cons.mp hl).2
    rw [fileBytes, if_pos hload]
    rcases mem_cons.mp hp with rfl | hp
    · have hafter : ∀ x ∈ l, x.Valid image.length ∧
          (p.vaddr + i < x.vaddr ∨ x.vaddr + x.memsz ≤ p.vaddr + i) := fun x hx => by
        have := rel_of_pairwise_cons hdisj hx
        exact ⟨(hl' x hx).2, by omega⟩
      have hlen := hvalid.length_file
      obtain ⟨-, hoff, hfile, -⟩ := hvalid
      rw [fileBytes_outside l hafter, overlay, Nat.add_sub_cancel_left]
      by_cases hin : i < p.filesz
      · have hbound : p.offset + i < image.length := by omega
        rw [if_pos (by omega), if_pos hin, getD_eq_getElem?_getD, getElem?_take,
          if_pos hin, getElem?_drop, getElem?_eq_getElem hbound, getD_some]
      · rw [if_neg (by omega), if_neg hin, hc]
    · refine ih hl' hdisj.of_cons hp ?_
      have := rel_of_pairwise_cons hdisj hp
      have := hvalid.1
      rw [overlay, hvalid.length_file, if_neg (by omega)]
      exact hc

theorem Phdr.covers_iff : p.Covers v ↔ p.Loadable ∧
      ∃ u, u / pageSize = v / pageSize ∧ p.vaddr ≤ u ∧ u < p.vaddr + p.memsz := by
  refine and_congr_right fun hload => ⟨?_, ?_⟩
  · rintro ⟨x, hx, heq⟩
    obtain ⟨k, rfl, hlo, hhi⟩ := mem_pagesOf.mp hx
    have := hload.2
    refine ⟨max (k * pageSize) p.vaddr, ?_, le_max_right .., ?_⟩
    · simp only [pageSize] at *
      omega
    · simp only [pageSize] at *
      omega
  · rintro ⟨u, heq, hlo, hhi⟩
    refine ⟨u / pageSize * pageSize, mem_pagesOf.mpr ⟨_, rfl, Nat.div_le_div_right hlo, ?_⟩, ?_⟩
    · simp only [pageSize] at *
      omega
    · rw [Nat.mul_div_cancel _ (by decide), heq]

/-- After the second loop the writable pages are those of the writable segments. -/
theorem protect_spec {ph : List Phdr}
    (hvalid : ∀ p ∈ ph, p.Loadable → p.Valid image.length)
    (h : Contents pages pending T (fun _ => true) c s0 s)
    (hT : ∀ v < userSpaceTop, T v ↔ ∃ p ∈ ph, p.Covers v) :
    ∃ s' w, protectSegments ph ph s = some s' ∧ Contents pages pending T w c s0 s' ∧
      ∀ v < userSpaceTop, T v →
        (w (v / pageSize) = true ↔ ∃ p ∈ ph, p.Writable ∧ p.Covers v) := by
  obtain ⟨s', w, hs', h', hw⟩ := protectSegments_spec ph ph h
    fun p hp hload => ⟨hvalid p hp hload, fun v hv hcov => (hT v hv).mpr ⟨p, hp, hcov⟩⟩
  refine ⟨s', w, hs', h', fun v hv ht => ?_⟩
  -- what the loader's test says for a page of a segment
  have htest : ∀ q ∈ ph, q.Loadable → ∀ x ∈ pagesOf q.vaddr (q.vaddr + q.memsz),
      x / pageSize = v / pageSize →
      (writableSegmentCovers ph x = true ↔ ∃ p ∈ ph, p.Writable ∧ p.Covers v) := by
    intro q hq hload x hx heq
    have hlt := ((hvalid q hq hload).area.2.1 x ⟨x, hx, rfl⟩).2
    obtain ⟨k, rfl, -⟩ := mem_pagesOf.mp hx
    rw [writableSegmentCovers_iff hvalid (Nat.mul_mod_left ..) hlt]
    refine exists_congr fun p => and_congr_right fun _ => ?_
    rw [Phdr.covers_iff, heq]
    exact and_left_comm
  rw [hw, and_iff_right rfl]
  constructor
  · intro hall
    obtain ⟨q, hq, hcov⟩ := (hT v hv).mp ht
    by_cases hwritable : q.Writable
    · exact ⟨q, hq, hwritable, hcov⟩
    · obtain ⟨hload, x, hx, heq⟩ := hcov
      exact (htest q hq hload x hx heq.symm).mp (hall q hq hload hwritable x hx heq.symm)
  · intro hex q hq hload _ x hx heq
    exact (htest q hq hload x hx heq).mpr hex

/-- Whatever the file is, no byte outside of it is read, and only pages of the image area
are mapped.  When segments that do not overlap are loaded, their bytes are those of the
file, and zeros, and the pages that can be written are those of the segments that can. -/
theorem elf_loads {own : Roles} (image : Image)
    (h : Layout own pages pending s) (hpend : pending s.active.frame = none)
    (hempty : ∀ v < userSpaceTop, s.walk v = none) : ∃ r s', elfLoad image s = some (r, s') ∧
      (∀ v, pdIndexOf v < ptAreaIndex → ¬ (userImageMin ≤ v ∧ v < userImageTop) →
        s'.walk v = s.walk v) ∧
      ∀ program, r = .ok program → Disjoint (segments image) →
        (∀ p ∈ segments image, ∀ i < p.memsz, s'.byteAt (p.vaddr + i) =
          if i < p.filesz then image[p.offset + i]? else some 0) ∧
        ∀ v < userSpaceTop, ∀ e, s'.walk v = some e →
          (e.writable = true ↔ ∃ p ∈ segments image, p.Writable ∧
            ∃ u, u / pageSize = v / pageSize ∧ p.vaddr ≤ u ∧ u < p.vaddr + p.memsz) := by
  have hstart : Contents pages pending (fun _ => False) (fun _ => true) (fun _ => 0) s s :=
    ⟨⟨own, h, hpend⟩, rfl, fun _ _ hf => hf.elim, fun v hv _ => hempty v hv, fun _ _ _ => rfl,
      fun _ _ hf => hf.elim⟩
  -- outside of the image area nothing is mapped
  have harea : ∀ {T w c s'}, Contents pages pending T w c s s' →
      (∀ v, T v → userImageMin ≤ v ∧ v < userImageTop) →
      ∀ v, pdIndexOf v < ptAreaIndex → ¬ (userImageMin ≤ v ∧ v < userImageTop) →
        s'.walk v = s.walk v := by
    intro T w c s' hcont hT v hi hout
    by_cases hv : v < userSpaceTop
    · rw [hcont.unmapped v hv fun ht => hout (hT v ht), hempty v hv]
    · exact hcont.kernel v (not_lt.mp hv) hi
  rw [elfLoad]
  split
  next => exact ⟨_, s, rfl, fun _ _ _ => rfl, nofun⟩
  next hsize =>
    obtain ⟨hdr, hhdr⟩ := Header.read_inside (not_lt.mp hsize)
    rw [hhdr, bind_some]
    split
    next => exact ⟨_, s, rfl, fun _ _ _ => rfl, nofun⟩
    next hvalid =>
      obtain ⟨-, -, -, -, -, -, -, -, hoff, hnum⟩ := not_not.mp hvalid
      have hfit : hdr.phoff + hdr.phnum * phdrSize ≤ image.length := by
        simp only [phdrSize] at *
        omega
      obtain ⟨ph, hph⟩ := phdrs_inside hdr.phoff hdr.phnum hfit
      obtain ⟨version, hversion⟩ := @abiVersion_inside image ph
      rw [hph, bind_some, hversion, bind_some]
      split
      next => exact ⟨_, s, rfl, fun _ _ _ => rfl, nofun⟩
      next =>
        have hsegments : segments image = ph.filter fun p => decide p.Loadable := by
          rw [segments, hhdr, bind_some, hph, getD_some]
        obtain ⟨r, s1, T, c, hs1, h1, hT, hok⟩ := loadSegments_spec image
          hdr.entry ph ⟨false, userImageTop, userImageMin⟩ hstart (fun _ _ _ => rfl)
          fun _ hf => hf.elim
        rw [hs1, bind_some]
        cases r with
        | error e => exact ⟨_, s1, rfl, harea h1 hT, nofun⟩
        | ok g =>
          dsimp only
          split
          next =>
            obtain ⟨hvalids, hcovers, rfl⟩ := hok g rfl
            have hmem : ∀ {p}, p ∈ segments image ↔ p ∈ ph ∧ p.Loadable := by
              rw [hsegments]
              simp
            obtain ⟨s2, w, hs2, h2, hw⟩ := protect_spec hvalids h1 fun v hv => by
              rw [hcovers v hv, false_or]
            refine ⟨_, s2, by rw [hs2]; rfl, harea h2 hT, fun _ _ hdisj => ⟨fun p hp i hi => ?_,
              fun v hv e he => ?_⟩⟩
            · obtain ⟨hp', hload⟩ := hmem.mp hp
              obtain ⟨-, hpages, hrange⟩ := (hvalids p hp' hload).area
              have hon := hrange i hi
              have huser : p.vaddr + i < userSpaceTop := lt_trans (hpages _ hon).2 (by decide)
              rw [h2.bytes _ huser ((hcovers _ huser).mpr (.inr ⟨p, hp', hload, hon⟩)),
                ← fileBytes_filter, ← hsegments]
              refine fileBytes_inside _ (fun q hq => ?_) hdisj hp hi rfl
              exact ⟨(hmem.mp hq).2, hvalids q (hmem.mp hq).1 (hmem.mp hq).2⟩
            · have ht : T v := by
                by_contra hnot
                cases (h2.unmapped v hv hnot).symm.trans he
              obtain ⟨f, hf⟩ := h2.mapped v hv ht
              cases hf.symm.trans he
              refine (hw v hv ht).trans (exists_congr fun p => ?_)
              rw [hmem, Phdr.covers_iff, and_assoc, and_left_comm (a := p.Writable)]
          next => exact ⟨_, s1, rfl, harea h1 hT, nofun⟩

/-- A program of one read-only segment, which is its note, and twelve zeros. -/
def tinyImage : Image :=
  [0x7f, 0x45, 0x4c, 0x46, 1, 1, 1, 0, 0, 0, 0, 0, 0, 0, 0, 0, 2, 0, 3, 0, 1, 0, 0, 0,
    0, 0, 0x40, 0, 52, 0, 0, 0, 0, 0, 0, 0, 0, 0, 0, 0, 52, 0, 32, 0, 2, 0, 0, 0, 0, 0, 0, 0,
    4, 0, 0, 0, 116, 0, 0, 0, 0, 0, 0, 0, 0, 0, 0, 0, 20, 0, 0, 0, 0, 0, 0, 0, 4, 0, 0, 0,
    4, 0, 0, 0,
    1, 0, 0, 0, 116, 0, 0, 0, 0, 0, 0x40, 0, 0, 0, 0, 0, 20, 0, 0, 0, 32, 0, 0, 0, 5, 0, 0, 0,
    0, 16, 0, 0,
    4, 0, 0, 0, 4, 0, 0, 0, 1, 0, 0, 0, 0x5a, 0x4b, 0x54, 0, 1, 0, 0, 0]

theorem tinyImage_ok : (elfLoad tinyImage bootVm.paging).map (·.1.isOk) = some true := by
  decide +kernel

theorem tinyImage_segments : segments tinyImage = [⟨1, 116, 0x400000, 20, 32, 5⟩] := by
  decide +kernel

/-- The program is loaded: a byte of the file, a zero after it, and a page that cannot be
written. -/
theorem elf_loads_tiny : ∃ program s', elfLoad tinyImage bootVm.paging = some (.ok program, s') ∧
      s'.byteAt 0x40000c = some 0x5a ∧ s'.byteAt 0x400018 = some 0 ∧
      ∀ e, s'.walk 0x400000 = some e → e.writable = false := by
  obtain ⟨r, s', hs', -, hok⟩ := elf_loads tinyImage boot_start.inv.layout rfl boot_unmapped
  have hisOk := tinyImage_ok
  rw [hs', map_some] at hisOk
  cases r with
  | error e => cases hisOk
  | ok program =>
    obtain ⟨hbytes, hwritable⟩ := hok program rfl (by
      rw [tinyImage_segments]
      exact pairwise_singleton ..)
    rw [tinyImage_segments] at hbytes hwritable
    have hbyte := hbytes _ (mem_singleton_self _)
    refine ⟨program, s', hs', hbyte 12 (by decide), hbyte 24 (by decide), fun e he => ?_⟩
    refine Bool.eq_false_iff.mpr fun hw => ?_
    obtain ⟨p, hp, hw', -⟩ := (hwritable 0x400000 (by decide) e he).mp hw
    rw [mem_singleton.mp hp] at hw'
    exact absurd hw' (by decide)

end ManiOS.Elf
