import ManiOS.Base
import ManiOS.Lib.Buffer

/-!
# Rock Ridge names

The System Use area of a directory record is a row of fields; `NM` fields spell the
name, and a `CE` field says where more fields are, in a block of the disc.
`rock_ridge_name` goes through up to eight such areas, the first in the record and
the others in a block-sized buffer that each is copied to.

Every byte that is read, copied or written is logged.  The length of a field is
checked against what is left of its area before anything else of it is read, and
the name stops at its limit.  The place of an area is checked as well, but its
offset and its length are added in 32 bits first.  `continuations` reads the areas
off the record and the disc.
-/

namespace ManiOS.Iso

open ManiOS.Lib List

def isoBlock : Nat := 2048

def nameMax : Nat := 63

/-- What fields are read from: the record, or the area. -/
inductive Region where
  | record | area
deriving DecidableEq, Repr

/-- What `rock_ridge_name` does to memory. -/
inductive Access where
  /-- A byte of an area is read. -/
  | read (r : Region) (i : Nat)
  /-- Bytes of the block that was read are copied to the start of the area. -/
  | copy (offset len : Nat)
  /-- A byte of the name is written. -/
  | out (i : Nat)
deriving DecidableEq, Repr

/-- The local variables. -/
structure Walk where
  name : List UInt8 := []
  relocated : Bool := false
  ceBlock : Nat := 0
  ceOffset : Nat := 0
  ceLen : Nat := 0

/-- `k` bytes from `i` on are read. -/
def reads (r : Region) (i k : Nat) : List Access := (List.range k).map fun j => .read r (i + j)

/-- One field of `elen` bytes at `su`, and whether the area goes on after it.  The
second byte is only looked at if the first is one that some field begins with. -/
def field (mem : Buf) (r : Region) (su elen : Nat) (w : Walk) : List Access × Walk × Bool :=
  let tag := reads r su (if mem su ∈ [78, 82, 67, 83] then 2 else 1)
  if mem su = 78 ∧ mem (su + 1) = 77 ∧ elen ≥ 5 then
    let tag := tag ++ reads r (su + 4) 1
    if mem (su + 4) &&& 6 = 0 then
      let k := min (elen - 5) (nameMax - w.name.length)
      (tag ++ reads r (su + 5) k ++ (List.range k).map fun j => .out (w.name.length + j),
        { w with name := w.name ++ (List.range k).map fun j => mem (su + 5 + j) }, true)
    else (tag, w, true)
  else if mem su = 82 ∧ mem (su + 1) = 69 then (tag, { w with relocated := true }, true)
  else if mem su = 67 ∧ mem (su + 1) = 69 ∧ elen ≥ 28 then
    (tag ++ reads r (su + 4) 4 ++ reads r (su + 12) 4 ++ reads r (su + 20) 4,
      { w with
        ceBlock := le32 (shift mem (su + 4))
        ceOffset := le32 (shift mem (su + 12))
        ceLen := le32 (shift mem (su + 20)) }, true)
  else (tag, w, !decide (mem su = 83 ∧ mem (su + 1) = 84))

/-- The loop over the fields of an area, `len` bytes from `su` on.  A turn takes at
least four of them. -/
def fields (mem : Buf) (r : Region) : Nat → Nat → Nat → Walk → List Access × Walk
  | 0, _, _, w => ([], w)
  | fuel + 1, su, len, w =>
    if len < 4 then ([], w)
    else
      let elen := (mem (su + 2)).toNat
      if elen < 4 ∨ elen > len then (reads r (su + 2) 1, w)
      else
        let (log, w, more) := field mem r su elen w
        let (log', w) := if more then fields mem r fuel (su + elen) (len - elen) w else ([], w)
        (reads r (su + 2) 1 ++ log ++ log', w)

/-- The loop over the areas, of which `left` may still be read.  `area` is what the
buffer shows, once it is allocated, and `alloc` what `kmalloc` returns. -/
def areas (readBlock : Nat → Option Buf) (alloc : Option Buf) :
    Nat → Buf → Region → Nat → Nat → Option Buf → Walk → List Access × Walk
  | 0, _, _, _, _, _, w => ([], w)
  | left + 1, mem, r, su, len, area, w =>
    let (log, w) := fields mem r len su len w
    if w.ceLen = 0 ∨ u32 (w.ceOffset + w.ceLen) > isoBlock then (log, w)
    else
      match area <|> alloc, readBlock w.ceBlock with
      | some area, some b =>
        let mem := memcpy area 0 b w.ceOffset w.ceLen
        let (log', w') := areas readBlock alloc left mem .area 0 w.ceLen (some mem)
          { w with ceLen := 0 }
        (log ++ .copy w.ceOffset w.ceLen :: log', w')
      | _, _ => (log, w)

variable (readBlock : Nat → Option Buf)

def rockRidgeName (alloc : Option Buf) (rec : Buf) (su len : Nat) : List Access × Walk :=
  let (log, w) := areas readBlock alloc 8 rec .record su len none {}
  (log ++ [.out w.name.length], w)

/-- The records that `decode` goes on with: not those of the directory itself and its parent,
and no associated files. -/
def Shown (rec : Buf) (len : Nat) : Prop :=
  ¬ (33 + (rec 32).toNat > len ∨ ((rec 32).toNat = 1 ∧ rec 33 ≤ 1) ∨ rec 25 &&& 4 ≠ 0)

instance (rec : Buf) (len : Nat) : Decidable (Shown rec len) :=
  inferInstanceAs (Decidable (¬ _))

/-- Where the System Use area of a record starts. -/
def systemUse (rec : Buf) (suspSkip : Nat) : Nat :=
  33 + (rec 32).toNat + (if (rec 32).toNat % 2 = 1 then 0 else 1) + suspSkip

/-- The call of it in `decode`, for a record of `len` bytes. -/
def recordName (alloc : Option Buf) (rec : Buf) (len suspSkip : Nat) : List Access × Walk :=
  if Shown rec len then
    let su := systemUse rec suspSkip
    rockRidgeName readBlock alloc rec su (if su < len then len - su else 0)
  else ([], {})

/-! ## Bounds -/

def Region.size (len : Nat) : Region → Nat
  | .record => len
  | .area => isoBlock

/-- The bytes are in the record or the area, in the block and the area, or in the
name with its terminator. -/
def Access.InBounds (len : Nat) : Access → Prop
  | .read r i => i < r.size len
  | .copy offset n => offset + n ≤ isoBlock
  | .out i => i ≤ nameMax

/-- All of it is. -/
def Safe (len : Nat) (log : List Access) : Prop := ∀ a ∈ log, a.InBounds len

/-! ## The areas that a record leads to -/

/-- The last `CE` field among the `n` bytes from `su` on, before one that ends the area. -/
def lastCe (mem : Buf) : Nat → Nat → Nat → Option Nat
  | 0, _, _ => none
  | fuel + 1, su, n =>
    let elen := (mem (su + 2)).toNat
    if n < 4 ∨ elen < 4 ∨ elen > n ∨ mem su = 83 ∧ mem (su + 1) = 84 then none
    else (lastCe mem fuel (su + elen) (n - elen)).or
      (if mem su = 67 ∧ mem (su + 1) = 69 ∧ elen ≥ 28 then some su else none)

/-- The block, the offset and the length that a `CE` field at `p` has. -/
def ceAt (mem : Buf) (p : Nat) : Nat × Nat × Nat :=
  (le32 (shift mem (p + 4)), le32 (shift mem (p + 12)), le32 (shift mem (p + 20)))

/-- The offsets and lengths of the areas that one leads to, up to `left` of them. -/
def continuations : Nat → Buf → Nat → Nat → List (Nat × Nat)
  | 0, _, _, _ => []
  | left + 1, mem, su, n =>
    match (lastCe mem n su n).map (ceAt mem) with
    | none => []
    | some (block, offset, len) =>
      if len = 0 ∨ u32 (offset + len) > isoBlock then []
      else match readBlock block with
        | none => []
        | some b => (offset, len) :: continuations left (shift b offset) 0 len

/-- What the last `CE` field said. -/
def Walk.ce (w : Walk) : Nat × Nat × Nat := (w.ceBlock, w.ceOffset, w.ceLen)

theorem field_ce (mem : Buf) (r : Region) (su elen : Nat) (w : Walk) :
    (field mem r su elen w).2.1.ce =
        (if mem su = 67 ∧ mem (su + 1) = 69 ∧ elen ≥ 28 then ceAt mem su else w.ce) ∧
      (field mem r su elen w).2.2 = !decide (mem su = 83 ∧ mem (su + 1) = 84) := by
  unfold field
  split_ifs <;> simp_all [Walk.ce, ceAt]

/-- The loop over the fields finds the last one, whatever there is after the area. -/
theorem fields_ce {mem mem' : Buf} (r : Region) (fuel : Nat) {su n : Nat} (w : Walk)
    (h : ∀ i, su ≤ i → i < su + n → mem' i = mem i) :
    (fields mem' r fuel su n w).2.ce = (lastCe mem fuel su n).elim w.ce (ceAt mem) := by
  induction fuel generalizing su n w with
  | zero => rfl
  | succ fuel ih =>
    unfold fields lastCe
    by_cases hn : n < 4
    · simp [hn]
    have h2 := h (su + 2) (by omega) (by omega)
    obtain ⟨hce, hmore⟩ := field_ce mem' r su (mem (su + 2)).toNat w
    rw [h su (by omega) (by omega), h (su + 1) (by omega) (by omega)] at hce hmore
    by_cases helen : (mem (su + 2)).toNat < 4 ∨ (mem (su + 2)).toNat > n
    · rcases helen with helen | helen <;> simp [hn, h2, helen]
    have hat : (mem (su + 2)).toNat ≥ 28 → ceAt mem' su = ceAt mem su := fun _ => by
      simp (disch := omega) only [ceAt, le32, shift, h]
    have hrest := @ih (su + (mem (su + 2)).toNat) (n - (mem (su + 2)).toNat)
      (field mem' r su (mem (su + 2)).toNat w).2.1 fun i hlo hhi => h i (by omega) (by omega)
    by_cases hst : mem su = 83 ∧ mem (su + 1) = 84
    · simp [hn, h2, hst, not_or.mp helen, hmore, hce]
    · simp only [hn, h2, hst, not_or.mp helen, hmore, or_self, if_false, decide_false,
        Bool.not_false, if_true, hrest, hce]
      cases lastCe mem fuel (su + (mem (su + 2)).toNat) (n - (mem (su + 2)).toNat) with
      | none =>
        split
        next hif => exact hat hif.2.2
        next => rfl
      | some p => rfl

section Bounds

variable {len : Nat} (mem : Buf) {r : Region} {su : Nat} {w : Walk}

theorem Safe.append {l l' : List Access} (h : Safe len l) (h' : Safe len l') : Safe len (l ++ l') :=
  forall_mem_append.mpr ⟨h, h'⟩

theorem safe_reads {i k : Nat} (h : i + k ≤ r.size len) : Safe len (reads r i k) := by
  intro a ha
  obtain ⟨j, hj, rfl⟩ := mem_map.mp ha
  exact lt_of_lt_of_le (Nat.add_lt_add_left (mem_range.mp hj) i) h

/-- A field stays within its length, and the name within its limit. -/
theorem safe_field {elen : Nat} (hsu : su + elen ≤ r.size len) (helen : 4 ≤ elen)
    (hw : w.name.length ≤ nameMax) :
    Safe len (field mem r su elen w).1 ∧ (field mem r su elen w).2.1.name.length ≤ nameMax := by
  have htag : Safe len (reads r su (if mem su ∈ [78, 82, 67, 83] then 2 else 1)) :=
    safe_reads (by split <;> omega)
  unfold field
  dsimp only
  split
  next hnm =>
    have hflags := htag.append (safe_reads (r := r) (i := su + 4) (k := 1) (by omega))
    split
    next =>
      refine ⟨(hflags.append (safe_reads (by omega))).append fun a ha => ?_, ?_⟩
      · obtain ⟨j, hj, rfl⟩ := mem_map.mp ha
        have := mem_range.mp hj
        show w.name.length + j ≤ nameMax
        omega
      · rw [length_append, length_map, length_range]
        omega
    next => exact ⟨hflags, hw⟩
  next =>
    split
    next => exact ⟨htag, hw⟩
    next =>
      split
      next =>
        exact ⟨((htag.append (safe_reads (by omega))).append (safe_reads (by omega))).append
          (safe_reads (by omega)), hw⟩
      next => exact ⟨htag, hw⟩

theorem safe_fields (fuel : Nat) {n : Nat} (hsu : 0 < n → su + n ≤ r.size len)
    (hw : w.name.length ≤ nameMax) :
    Safe len (fields mem r fuel su n w).1 ∧ (fields mem r fuel su n w).2.name.length ≤ nameMax := by
  induction fuel generalizing su n w with
  | zero => exact ⟨forall_mem_nil _, hw⟩
  | succ fuel ih =>
    unfold fields
    dsimp only
    split
    next => exact ⟨forall_mem_nil _, hw⟩
    next hn =>
      have hlen : Safe len (reads r (su + 2) 1) := safe_reads (by omega)
      split
      next => exact ⟨hlen, hw⟩
      next helen =>
        have hsize : su + (mem (su + 2)).toNat ≤ r.size len := by omega
        obtain ⟨hfield, hname⟩ := safe_field mem hsize (by omega) hw
        split
        next =>
          have hnext : 0 < n - (mem (su + 2)).toNat →
              su + (mem (su + 2)).toNat + (n - (mem (su + 2)).toNat) ≤ r.size len := by omega
          obtain ⟨hrest, hname'⟩ := ih hnext hname
          exact ⟨(hlen.append hfield).append hrest, hname'⟩
        next => exact ⟨(hlen.append hfield).append (forall_mem_nil _), hname⟩

/-- All is in bounds if and only if the offset and length of no area wrap.  `area` shows what
`mem` does. -/
theorem safe_areas {readBlock : Nat → Option Buf} {alloc area : Option Buf} {mem' : Buf} (left : Nat)
    {n : Nat} (hsu : 0 < n → su + n ≤ r.size len) (hw : w.name.length ≤ nameMax)
    (hzero : w.ceLen = 0) (h : ∀ i, su ≤ i → i < su + n → mem' i = mem i) :
    (Safe len (areas readBlock alloc left mem' r su n area w).1 ∧
      (areas readBlock alloc left mem' r su n area w).2.name.length ≤ nameMax) ↔
      ((area <|> alloc).isSome = true →
        ∀ a ∈ continuations readBlock left mem su n, a.1 + a.2 < 4294967296) := by
  induction left generalizing mem mem' r su n area w with
  | zero => exact iff_of_true ⟨forall_mem_nil _, hw⟩ fun _ => forall_mem_nil _
  | succ left ih =>
    have hfields := safe_fields mem' n hsu hw
    have hce := fields_ce r n w h
    rw [areas, continuations]
    generalize fields mem' r n su n w = p at hfields hce ⊢
    obtain ⟨log, w'⟩ := p
    cases hlast : lastCe mem n su n with
    | none =>
      rw [hlast] at hce
      simp only [Walk.ce, Option.elim_none, Prod.mk.injEq, hzero] at hce
      simp [hce, hfields]
    | some q =>
      rw [hlast] at hce
      simp only [Walk.ce, Option.elim_some] at hce
      rw [Option.map_some, ← hce]
      dsimp only
      split_ifs with hplace
      · simp [hfields]
      cases harea : area <|> alloc with
      | none => simp [hfields]
      | some a =>
        cases hblock : readBlock w'.ceBlock with
        | none => simp [hfields]
        | some b =>
          -- without a wrap, the check is on the sum itself
          have hcopy : w'.ceOffset + w'.ceLen ≤ isoBlock ↔
              w'.ceOffset + w'.ceLen < 4294967296 := by
            simp only [not_or, u32, isoBlock] at *
            omega
          have hrest (hfit : w'.ceOffset + w'.ceLen ≤ isoBlock) :=
            @ih (shift b w'.ceOffset) .area 0 { w' with ceLen := 0 }
              (some (memcpy a 0 b w'.ceOffset w'.ceLen)) (memcpy a 0 b w'.ceOffset w'.ceLen) w'.ceLen
              (fun _ => by rw [zero_add]; exact (Nat.le_add_left ..).trans hfit) hfields.2 rfl
              fun i _ hi => memcpy_inside (Nat.zero_le _) hi
          simp only [Safe, forall_mem_append, forall_mem_cons]
          constructor
          · rintro ⟨⟨-, hfit, hlog⟩, hname⟩ _
            exact ⟨hcopy.mp hfit, (hrest hfit).mp ⟨hlog, hname⟩ rfl⟩
          · intro hall
            obtain ⟨hfit, hareas⟩ := hall rfl
            obtain ⟨hlog, hname⟩ := (hrest (hcopy.mpr hfit)).mpr fun _ => hareas
            exact ⟨⟨hfields.1, hcopy.mpr hfit, hlog⟩, hname⟩

end Bounds

/-- Every byte that `rock_ridge_name` reads, copies or writes for a record is where
it should be, if and only if no area that the record leads to has an offset and a length
that come to 2^32 or more. -/
theorem record_name_in_bounds (alloc : Option Buf) (rec : Buf) (len suspSkip : Nat) :
    Safe len (recordName readBlock alloc rec len suspSkip).1 ↔
      (Shown rec len → alloc.isSome = true → ∀ a ∈ continuations readBlock 8 rec
        (systemUse rec suspSkip) (len - systemUse rec suspSkip), a.1 + a.2 < 4294967296) := by
  unfold recordName rockRidgeName
  generalize systemUse rec suspSkip = su
  have hn : (if su < len then len - su else 0) = len - su := by split <;> omega
  split
  next hshown =>
    have hsize : 0 < len - su → su + (len - su) ≤ Region.size len .record := by
      rw [Region.size]
      omega
    dsimp only
    rw [hn, Safe, forall_mem_append, forall_mem_singleton]
    refine (safe_areas rec 8 hsize (Nat.zero_le _) rfl fun _ _ _ => rfl).trans ?_
    simp [hshown]
  next hshown => exact iff_of_true (forall_mem_nil _) fun h => absurd h hshown

/-- A record of 62 bytes with the name `A`.  Its `CE` field is for an area at
0xFFFFF800 that is 0x1000 bytes long. -/
def wrapped : Buf := fun i =>
  if i < 34 then if i = 32 then 1 else if i = 33 then 65 else 0
  else ([67, 69, 28, 1, 0, 0, 0, 0, 0, 0, 0, 0, 0, 248, 255, 255, 0, 0, 0, 0, 0, 16] : List UInt8).getD
    (i - 34) 0

/-- The sum of the two is 2048 in 32 bits, and 4096 bytes far from the block are
copied. -/
theorem copied_outside :
    .copy 4294965248 4096 ∈ (recordName (fun _ => some fun _ => 0) (some fun _ => 0) wrapped 62 0).1 ∧
      ¬ Safe 62 (recordName (fun _ => some fun _ => 0) (some fun _ => 0) wrapped 62 0).1 := by
  have hcopy : .copy 4294965248 4096 ∈
      (recordName (fun _ => some fun _ => 0) (some fun _ => 0) wrapped 62 0).1 := by decide
  exact ⟨hcopy, fun hsafe => absurd (show 4294965248 + 4096 ≤ 2048 from hsafe _ hcopy) (by decide)⟩

end ManiOS.Iso
