import ManiOS.Mm.Spaces

/-!
# Copies from and to user memory

A system call gets addresses from a program.  `vmm_user_range_ok` looks at the page
table entries of all pages of a range before `usercopy.c` touches a byte of it; a
string is checked page by page, because where it ends is not known.

The functions here return what they touched, in order, next to their result.  A
result of `none` is a page fault in the kernel.  The page tables may hold anything:
of the active directory only the last entry has to point at itself.
-/

namespace ManiOS.Mm

open List

namespace Paging

/-- The entries of a byte's page are there for users, and the page's own can be written if the
byte is to be.  The directory's entry need not be writable. -/
def Accessible (write : Bool) (s : Paging) (addr : Nat) : Prop :=
  addr < userSpaceTop ∧
    ∃ pde pte, s.ram.entry s.active.frame (pdIndexOf addr) = some pde ∧ pde.user = true ∧
      s.ram.entry pde.frame (ptIndexOf addr) = some pte ∧ pte.user = true ∧
      (write = true → pte.writable = true)

/-! ## The page test -/

/-- The test of one page: the entries have all the bits that are needed. -/
def userPageOk (write : Bool) (page : Nat) (s : Paging) : Option Bool :=
  (s.load recursivePdAddr (pdIndexOf page)).bind fun pde =>
    if pde.any Entry.user then
      (s.load (pageTable (pdIndexOf page)) (ptIndexOf page)).map fun pte =>
        pte.any fun e => e.user && (!write || e.writable)
    else some false

/-- The loop over the pages of a range. -/
def userPagesOk (write : Bool) : List Nat → Paging → Option Bool
  | [], _ => some true
  | page :: l, s =>
    (s.userPageOk write page).bind fun ok => if ok then userPagesOk write l s else some false

/-- The pages from that of `addr` to below `limit`. -/
def pagesOf (addr limit : Nat) : List Nat :=
  List.range' (addr / pageSize * pageSize)
    ((limit + (pageSize - 1)) / pageSize - addr / pageSize) pageSize

def userRangeOk (addr len : Nat) (write : Bool) (s : Paging) : Option Bool :=
  if len = 0 then some (decide (addr ≤ userSpaceTop))
  else if userSpaceTop ≤ addr ∨ userSpaceTop - addr < len then some false
  else s.userPagesOk write (pagesOf addr (addr + len))

/-! ## The copies -/

/-- What a copy touched, and its result. -/
structure Copied (α : Type) where
  touched : List Nat
  result : Option (Except Errno α)

def byteAt (addr : Nat) (s : Paging) : Option UInt8 :=
  (s.page addr).map fun f => s.ram f (addr % pageSize)

def setByteAt (addr : Nat) (b : UInt8) (s : Paging) : Option Paging :=
  (s.page addr).map fun f => { s with ram := s.ram.setByte f (addr % pageSize) b }

/-- `memcpy` of `n` bytes from `addr` on. -/
def readBytes : Nat → Nat → Paging → Copied (List UInt8)
  | 0, _, _ => ⟨[], some (.ok [])⟩
  | n + 1, addr, s =>
    match s.byteAt addr with
    | none => ⟨[addr], none⟩
    | some b =>
      let rest := readBytes n (u32 (addr + 1)) s
      ⟨addr :: rest.touched, rest.result.map fun r => r.map (b :: ·)⟩

/-- `copy_from_user`: the bytes that it copied. -/
def copyFromUser (src n : UInt32) (s : Paging) : Copied (List UInt8) :=
  match s.userRangeOk src.toNat n.toNat false with
  | none => ⟨[], none⟩
  | some false => ⟨[], some (.error .efault)⟩
  | some true => readBytes n.toNat src.toNat s

/-- `memcpy` of bytes to `addr` on. -/
def writeBytes : List UInt8 → Nat → Paging → Copied Paging
  | [], _, s => ⟨[], some (.ok s)⟩
  | b :: bs, addr, s =>
    match s.setByteAt addr b with
    | none => ⟨[addr], none⟩
    | some s =>
      let rest := writeBytes bs (u32 (addr + 1)) s
      ⟨addr :: rest.touched, rest.result⟩

/-- `copy_to_user`: the state after it. -/
def copyToUser (dst : UInt32) (src : List UInt8) (s : Paging) : Copied Paging :=
  match s.userRangeOk dst.toNat src.length true with
  | none => ⟨[], none⟩
  | some false => ⟨[], some (.error .efault)⟩
  | some true => writeBytes src dst.toNat s

/-- The inner loop of `copy_string_from_user`: up to `n` bytes of a page.  Without a NUL
the result is the bytes and `false`. -/
def scanPage : Nat → Nat → Paging → Copied (List UInt8 × Bool)
  | 0, _, _ => ⟨[], some (.ok ([], false))⟩
  | n + 1, addr, s =>
    match s.byteAt addr with
    | none => ⟨[addr], none⟩
    | some b =>
      if b = 0 then ⟨[addr], some (.ok ([], true))⟩
      else
        let rest := scanPage n (u32 (addr + 1)) s
        ⟨addr :: rest.touched, rest.result.map fun r => r.map fun x => (b :: x.1, x.2)⟩

/-- The outer loop, with `left` bytes of the limit, and a bound on the number of pages. -/
def copyPages : Nat → Nat → Nat → Paging → Copied (List UInt8)
  | 0, _, _, _ => ⟨[], none⟩
  | n + 1, left, addr, s =>
    if left = 0 then ⟨[], some (.error .enametoolong)⟩
    else
      match s.userRangeOk addr 1 false with
      | none => ⟨[], none⟩
      | some false => ⟨[], some (.error .efault)⟩
      | some true =>
        let count := min (pageSize - addr % pageSize) left
        let page := scanPage count addr s
        match page.result with
        | none => ⟨page.touched, none⟩
        | some (.error e) => ⟨page.touched, some (.error e)⟩
        | some (.ok (bs, true)) => ⟨page.touched, some (.ok bs)⟩
        | some (.ok (bs, false)) =>
          let rest := copyPages n (left - count) (u32 (addr + count)) s
          ⟨page.touched ++ rest.touched, rest.result.map fun r => r.map (bs ++ ·)⟩

/-- `copy_string_from_user`: the string.  Its length is what the function returns. -/
def copyStringFromUser (src max : UInt32) (s : Paging) : Copied (List UInt8) :=
  copyPages (max.toNat + 1) max.toNat src.toNat s

variable {s : Paging} {write : Bool} {addr len n : Nat}

/-! ## What the page test says -/

theorem accessible_page {addr' : Nat} (h : addr' / pageSize = addr / pageSize) :
    s.Accessible write addr' ↔ s.Accessible write addr := by
  have hpd : pdIndexOf addr' = pdIndexOf addr := by
    simp only [pdIndexOf, pageSize] at *
    omega
  have hpt : ptIndexOf addr' = ptIndexOf addr := by rw [ptIndexOf, ptIndexOf, h]
  have htop : addr' < userSpaceTop ↔ addr < userSpaceTop := by
    simp only [userSpaceTop, pageSize] at *
    omega
  rw [Accessible, Accessible, hpd, hpt, htop]

theorem userPageOk_spec (write : Bool) (h : s.Recursive) (hlt : addr < userSpaceTop) :
    ∃ b, s.userPageOk write addr = some b ∧ (b = true ↔ s.Accessible write addr) := by
  have hi : pdIndexOf addr < 1024 := by
    simp only [pdIndexOf, userSpaceTop] at *
    omega
  rw [userPageOk, load, h.page_pd, Option.map_some, load, h.page_pageTable hi,
    Accessible]
  cases hpde : s.ram.entry s.active.frame (pdIndexOf addr) with
  | none => exact ⟨false, rfl, by simp⟩
  | some pde =>
    cases huser : pde.user with
    | false => exact ⟨false, by simp [huser], by simp [huser]⟩
    | true =>
      cases hpte : s.ram.entry pde.frame (ptIndexOf addr) with
      | none => exact ⟨false, by simp [hpte], by simp [hpte]⟩
      | some pte =>
        refine ⟨pte.user && (!write || pte.writable), by simp [huser, hpte], ?_⟩
        cases write <;> simp [huser, hpte, hlt]

theorem userPagesOk_spec (write : Bool) (h : s.Recursive) (l : List Nat)
    (hl : ∀ page ∈ l, page < userSpaceTop) : ∃ b, s.userPagesOk write l = some b ∧
      (b = true ↔ ∀ page ∈ l, s.Accessible write page) := by
  induction l with
  | nil => exact ⟨true, rfl, by simp⟩
  | cons page l ih =>
    obtain ⟨b, hb, hiff⟩ := userPageOk_spec write h (hl page mem_cons_self)
    obtain ⟨c, hc, hrest⟩ := ih (forall_mem_cons.mp hl).2
    rw [userPagesOk, hb]
    cases b with
    | false => exact ⟨false, rfl, by simp [← hiff]⟩
    | true => exact ⟨c, hc, by simp [← hiff, hrest]⟩

theorem mem_pagesOf {limit page : Nat} :
    page ∈ pagesOf addr limit ↔ ∃ k, page = k * pageSize ∧ addr / pageSize ≤ k ∧
      k < (limit + (pageSize - 1)) / pageSize := by
  rw [pagesOf, mem_range']
  constructor
  · rintro ⟨i, hi, rfl⟩
    refine ⟨addr / pageSize + i, ?_, by omega, by omega⟩
    rw [Nat.add_mul, Nat.mul_comm pageSize i]
  · rintro ⟨k, rfl, hlo, hhi⟩
    refine ⟨k - addr / pageSize, by omega, ?_⟩
    rw [Nat.mul_comm pageSize, ← Nat.add_mul, Nat.add_sub_cancel' hlo]

theorem userRangeOk_spec (addr : Nat) (write : Bool) (h : s.Recursive) (hpos : 0 < len) :
    ∃ b, s.userRangeOk addr len write = some b ∧
      (b = true ↔ ∀ i < len, s.Accessible write (addr + i)) := by
  rw [userRangeOk, if_neg (Nat.ne_of_gt hpos)]
  split
  next hbad =>
    refine ⟨false, rfl, by simp, fun hall => ?_⟩
    -- the first byte that is not below the top
    have hi : userSpaceTop - addr < len := by omega
    have := (hall _ hi).1
    omega
  next hok =>
    have hpages : ∀ page ∈ pagesOf addr (addr + len), page < userSpaceTop := by
      intro page hpage
      obtain ⟨k, rfl, -, hk⟩ := mem_pagesOf.mp hpage
      simp only [pageSize, userSpaceTop] at *
      omega
    obtain ⟨b, hb, hiff⟩ := userPagesOk_spec write h _ hpages
    refine ⟨b, hb, hiff.trans ⟨fun hall i hi => ?_, fun hall page hpage => ?_⟩⟩
    · have hpage : (addr + i) / pageSize * pageSize ∈ pagesOf addr (addr + len) := by
        refine mem_pagesOf.mpr ⟨_, rfl, Nat.div_le_div_right (Nat.le_add_right ..), ?_⟩
        simp only [pageSize]
        omega
      rw [← accessible_page (Nat.mul_div_cancel _ (by decide))]
      exact hall _ hpage
    · obtain ⟨k, rfl, hlo, hhi⟩ := mem_pagesOf.mp hpage
      -- a byte of the range that is on the page
      have hi : max addr (k * pageSize) - addr < len := by
        simp only [pageSize] at *
        omega
      have hsame : k * pageSize / pageSize =
          (addr + (max addr (k * pageSize) - addr)) / pageSize := by
        simp only [pageSize] at *
        omega
      rw [accessible_page hsame]
      exact hall _ hi

/-! ## The bytes that are touched -/

theorem byteAt_isSome (h : s.Accessible write addr) : ∃ b, s.byteAt addr = some b := by
  obtain ⟨-, pde, pte, hpde, -, hpte, -⟩ := h
  rw [byteAt, page, walk, hpde, Option.bind_some, hpte]
  exact ⟨_, rfl⟩

theorem next_byte (h : s.Accessible write addr) : u32 (addr + 1) = addr + 1 := by
  have := h.1
  rw [userSpaceTop] at this
  exact u32_of_lt (by omega)

theorem readBytes_spec (n : Nat) (hall : ∀ i < n, s.Accessible false (addr + i)) :
    (readBytes n addr s).touched = List.range' addr n ∧
      ∃ bs, (readBytes n addr s).result = some (.ok bs) ∧ bs.length = n ∧
        ∀ i < n, s.byteAt (addr + i) = bs[i]? := by
  induction n generalizing addr with
  | zero => exact ⟨rfl, [], rfl, rfl, fun i hi => absurd hi (Nat.not_lt_zero i)⟩
  | succ n ih =>
    have h0 := hall 0 (Nat.succ_pos n)
    rw [Nat.add_zero] at h0
    obtain ⟨b, hb⟩ := byteAt_isSome h0
    have hnext : ∀ i < n, s.Accessible false (addr + 1 + i) := fun i hi => by
      rw [Nat.add_right_comm]
      exact hall (i + 1) (by omega)
    obtain ⟨htouched, bs, hbs, hlen, hbytes⟩ := ih hnext
    rw [readBytes, hb, next_byte h0]
    refine ⟨congrArg (addr :: ·) htouched, b :: bs, ?_, congrArg (· + 1) hlen, fun i hi => ?_⟩
    · exact congrArg (Option.map fun r => r.map (b :: ·)) hbs
    · cases i with
      | zero => exact hb
      | succ i =>
        rw [getElem?_cons_succ, ← hbytes i (by omega), Nat.add_right_comm]
        rfl

/-- A write touches no byte outside of the range, whatever it does to the tables. -/
theorem writeBytes_touched (bs : List UInt8) (hlt : addr + bs.length < 4294967296) :
    ∀ v ∈ (writeBytes bs addr s).touched, ∃ i < bs.length, v = addr + i := by
  induction bs generalizing addr s with
  | nil => exact fun v hv => (not_mem_nil hv).elim
  | cons b bs ih =>
    rw [length_cons] at hlt ⊢
    rw [writeBytes]
    split
    next =>
      intro v hv
      exact ⟨0, Nat.succ_pos _, mem_singleton.mp hv⟩
    next s' _ =>
      intro v hv
      rcases mem_cons.mp hv with rfl | hv
      · exact ⟨0, Nat.succ_pos _, rfl⟩
      · rw [u32_of_lt (by omega)] at hv
        obtain ⟨i, hi, rfl⟩ := ih (by omega) v hv
        exact ⟨i + 1, by omega, by omega⟩

/-! ## Strings -/

/-- The bytes of `bs` are at `addr`, and none of them is NUL. -/
def Holds (s : Paging) : Nat → List UInt8 → Prop
  | _, [] => True
  | addr, b :: bs => s.byteAt addr = some b ∧ b ≠ 0 ∧ Holds s (addr + 1) bs

variable {bs : List UInt8}

theorem Holds.drop (h : s.Holds addr bs) (k : Nat) (hk : k ≤ bs.length) :
    s.Holds (addr + k) (bs.drop k) := by
  induction k generalizing addr bs with
  | zero => exact h
  | succ k ih =>
    cases bs with
    | nil => exact absurd hk (Nat.not_succ_le_zero k)
    | cons b bs =>
      rw [drop_succ_cons, Nat.add_comm k 1, ← Nat.add_assoc]
      exact ih h.2.2 (Nat.le_of_succ_le_succ hk)

theorem scanPage_touched (n : Nat) (hall : ∀ i < n, s.Accessible false (addr + i)) :
    ∀ v ∈ (scanPage n addr s).touched, s.Accessible false v := by
  induction n generalizing addr with
  | zero => exact fun v hv => (not_mem_nil hv).elim
  | succ n ih =>
    have h0 := hall 0 (Nat.succ_pos n)
    have hnext : ∀ i < n, s.Accessible false (addr + 1 + i) := fun i hi => by
      rw [Nat.add_right_comm]
      exact hall (i + 1) (by omega)
    have hrest := ih hnext
    rw [scanPage, next_byte h0]
    split
    next =>
      exact forall_mem_singleton.mpr h0
    next b _ =>
      split
      next => exact forall_mem_singleton.mpr h0
      next => exact forall_mem_cons.mpr ⟨h0, hrest⟩

/-- A page with the end of a string, or with a part of it. -/
theorem scanPage_string (n : Nat) (h : s.Holds addr bs)
    (hend : s.byteAt (addr + bs.length) = some 0)
    (hall : ∀ i ≤ bs.length, s.Accessible false (addr + i)) : (scanPage n addr s).result =
      some (.ok (if bs.length < n then (bs, true) else (bs.take n, false))) := by
  induction n generalizing addr bs with
  | zero => rfl
  | succ n ih =>
    have h0 := hall 0 (Nat.zero_le _)
    cases bs with
    | nil =>
      rw [scanPage, show s.byteAt addr = some 0 from hend]
      rfl
    | cons b bs =>
      rw [scanPage, h.1, next_byte h0]
      dsimp only
      rw [if_neg h.2.1]
      rw [length_cons] at hend hall ⊢
      rw [ih h.2.2 (by rw [← hend, Nat.add_right_comm]; rfl) fun i hi => by
        rw [Nat.add_right_comm]
        exact hall (i + 1) (by omega)]
      by_cases hlt : bs.length < n
      · rw [if_pos hlt, if_pos (Nat.succ_lt_succ hlt)]
        rfl
      · rw [if_neg hlt, if_neg fun hc => hlt (Nat.lt_of_succ_lt_succ hc)]
        rfl

theorem page_accessible {count : Nat} (h : s.Accessible false addr)
    (hcount : count ≤ pageSize - addr % pageSize) : ∀ i < count, s.Accessible false (addr + i) := by
  intro i hi
  refine (accessible_page ?_).mpr h
  simp only [pageSize] at *
  omega

theorem userRangeOk_one (addr : Nat) (h : s.Recursive) :
    ∃ b, s.userRangeOk addr 1 false = some b ∧ (b = true ↔ s.Accessible false addr) := by
  obtain ⟨b, hb, hiff⟩ := userRangeOk_spec addr false h Nat.one_pos
  refine ⟨b, hb, hiff.trans ⟨fun hall => hall 0 Nat.one_pos, fun h i hi => ?_⟩⟩
  rw [Nat.lt_one_iff.mp hi]
  exact h

variable (h : s.Recursive)
include h

theorem copyPages_touched (fuel left addr : Nat) :
    ∀ v ∈ (copyPages fuel left addr s).touched, s.Accessible false v := by
  induction fuel generalizing left addr with
  | zero => exact fun v hv => (not_mem_nil hv).elim
  | succ n ih =>
    obtain ⟨b, hb, hiff⟩ := userRangeOk_one addr h
    rw [copyPages, hb]
    split
    next => exact fun v hv => (not_mem_nil hv).elim
    next =>
      cases b with
      | false => exact fun v hv => (not_mem_nil hv).elim
      | true =>
        have hpage := scanPage_touched _ (page_accessible (hiff.mp rfl)
          (Nat.min_le_left (pageSize - addr % pageSize) left))
        dsimp only
        split
        next => exact hpage
        next => exact hpage
        next => exact hpage
        next =>
          intro v hv
          exact (mem_append.mp hv).elim (hpage v) (ih _ _ v)

theorem copyPages_string (fuel left addr : Nat)
    (hbs : s.Holds addr bs) (hend : s.byteAt (addr + bs.length) = some 0)
    (hall : ∀ i ≤ bs.length, s.Accessible false (addr + i)) (hleft : bs.length < left)
    (hfuel : left < fuel) : (copyPages fuel left addr s).result = some (.ok bs) := by
  induction fuel generalizing left addr bs with
  | zero => omega
  | succ n ih =>
    have h0 := hall 0 (Nat.zero_le _)
    obtain ⟨b, hb, hiff⟩ := userRangeOk_one addr h
    cases hiff.mpr h0
    rw [copyPages, if_neg (by omega), hb]
    dsimp only
    rw [scanPage_string _ hbs hend hall]
    have hpos : 0 < pageSize - addr % pageSize := Nat.sub_pos_of_lt (Nat.mod_lt _ (by decide))
    generalize hcount : min (pageSize - addr % pageSize) left = count
    by_cases hlt : bs.length < count
    · rw [if_pos hlt]
    · rw [if_neg hlt]
      have hle : count ≤ bs.length := Nat.le_of_not_lt hlt
      have hwrap : u32 (addr + count) = addr + count := by
        have := (hall count hle).1
        rw [userSpaceTop] at this
        exact u32_of_lt (by omega)
      have hlen : (bs.drop count).length = bs.length - count := length_drop
      rw [hwrap, ih (left - count) (addr + count) (hbs.drop count hle) ?_ ?_ (by omega) (by omega)]
      · exact congrArg (fun l => some (Except.ok l)) (take_append_drop count bs)
      · rw [hlen, Nat.add_assoc, Nat.add_sub_cancel' hle]
        exact hend
      · intro i hi
        rw [Nat.add_assoc]
        exact hall (count + i) (by omega)

/-! ## The copies -/

theorem copyFromUser_spec (src n : UInt32) :
    (∀ v ∈ (s.copyFromUser src n).touched, s.Accessible false v) ∧
      ((∃ i < n.toNat, ¬ s.Accessible false (src.toNat + i)) →
        s.copyFromUser src n = ⟨[], some (.error .efault)⟩) ∧
      (0 < n.toNat → (∀ i < n.toNat, s.Accessible false (src.toNat + i)) →
        ∃ bs, (s.copyFromUser src n).result = some (.ok bs) ∧ bs.length = n.toNat ∧
          ∀ i < n.toNat, s.byteAt (src.toNat + i) = bs[i]?) := by
  rw [copyFromUser]
  rcases Nat.eq_zero_or_pos n.toNat with hzero | hpos
  · rw [userRangeOk, hzero]
    refine ⟨?_, fun ⟨i, hi, _⟩ => absurd hi (Nat.not_lt_zero i),
      fun h => absurd h (Nat.lt_irrefl 0)⟩
    split <;> exact fun v hv => (not_mem_nil hv).elim
  · obtain ⟨b, hb, hiff⟩ := userRangeOk_spec src.toNat false h hpos
    rw [hb]
    cases b with
    | false =>
      refine ⟨fun v hv => (not_mem_nil hv).elim, fun _ => rfl, fun _ hall => ?_⟩
      cases hiff.mpr hall
    | true =>
      have hall := hiff.mp rfl
      obtain ⟨htouched, hresult⟩ := readBytes_spec n.toNat hall
      refine ⟨fun v hv => ?_, fun ⟨i, hi, hnot⟩ => absurd (hall i hi) hnot, fun _ _ => hresult⟩
      rw [htouched, mem_range'_1] at hv
      rw [← Nat.add_sub_cancel' hv.1]
      exact hall _ (by omega)

theorem copyToUser_spec (dst : UInt32) (src : List UInt8) :
    (∀ v ∈ (s.copyToUser dst src).touched, s.Accessible true v) ∧
      ((∃ i < src.length, ¬ s.Accessible true (dst.toNat + i)) →
        s.copyToUser dst src = ⟨[], some (.error .efault)⟩) := by
  rw [copyToUser]
  rcases Nat.eq_zero_or_pos src.length with hzero | hpos
  · rw [userRangeOk, hzero]
    refine ⟨?_, fun ⟨i, hi, _⟩ => absurd hi (Nat.not_lt_zero i)⟩
    rw [length_eq_zero_iff.mp hzero]
    split <;> exact fun v hv => (not_mem_nil hv).elim
  · obtain ⟨b, hb, hiff⟩ := userRangeOk_spec dst.toNat true h hpos
    rw [hb]
    cases b with
    | false => exact ⟨fun v hv => (not_mem_nil hv).elim, fun _ => rfl⟩
    | true =>
      have hall := hiff.mp rfl
      have hlast := (hall (src.length - 1) (by omega)).1
      rw [userSpaceTop] at hlast
      refine ⟨fun v hv => ?_, fun ⟨i, hi, hnot⟩ => absurd (hall i hi) hnot⟩
      obtain ⟨i, hi, rfl⟩ := writeBytes_touched src (by omega) v hv
      exact hall i hi

omit h

end Paging

/-- The copies touch a byte of user memory only if a program could: below the top of user
space, on a page that is present and accessible to users, and writable for a write.  A copy
of a fixed length touches nothing if a byte of its range fails that test, and copies all of
it otherwise; a string is copied if it ends, within the limit, before a byte that fails. -/
theorem user_copies {s : Paging} (h : s.Recursive) :
    (∀ src n, (∀ v ∈ (s.copyFromUser src n).touched, s.Accessible false v) ∧
      ((∃ i < n.toNat, ¬ s.Accessible false (src.toNat + i)) →
        s.copyFromUser src n = ⟨[], some (.error .efault)⟩) ∧
      (0 < n.toNat → (∀ i < n.toNat, s.Accessible false (src.toNat + i)) →
        ∃ bs, (s.copyFromUser src n).result = some (.ok bs) ∧ bs.length = n.toNat ∧
          ∀ i < n.toNat, s.byteAt (src.toNat + i) = bs[i]?)) ∧
    (∀ dst src, (∀ v ∈ (s.copyToUser dst src).touched, s.Accessible true v) ∧
      ((∃ i < src.length, ¬ s.Accessible true (dst.toNat + i)) →
        s.copyToUser dst src = ⟨[], some (.error .efault)⟩)) ∧
    ∀ src max, (∀ v ∈ (s.copyStringFromUser src max).touched, s.Accessible false v) ∧
      ∀ bs, s.Holds src.toNat bs → s.byteAt (src.toNat + bs.length) = some 0 →
        (∀ i ≤ bs.length, s.Accessible false (src.toNat + i)) → bs.length < max.toNat →
        (s.copyStringFromUser src max).result = some (.ok bs) := by
  refine ⟨Paging.copyFromUser_spec h, Paging.copyToUser_spec h, fun src max => ⟨?_, ?_⟩⟩
  · exact Paging.copyPages_touched h _ _ _
  · intro bs hbs hend hall hlt
    exact Paging.copyPages_string h _ _ _ hbs hend hall hlt (Nat.lt_succ_self _)

/-- A program with one page that it can only read, with a string of two letters. -/
def helloPaging : Paging where
  pmm := ⟨fun _ => true, 16, 1, 1, 0⟩
  ram := (((Ram.setEntry (fun _ _ => 0) 2 recursivePdIndex (some ⟨2, true, false, false⟩)).setEntry
    2 0 (some ⟨3, true, true, false⟩)).setEntry 3 1 (some ⟨4, false, true, false⟩)).setByte
    4 0 0x68 |>.setByte 4 1 0x69
  kernelSpace := ⟨0xC0002000, 2⟩
  spaces := [⟨0xC0002000, 2⟩]
  active := ⟨0xC0002000, 2⟩
  slots := fun _ => false

theorem user_copies_hello :
    (helloPaging.copyStringFromUser 0x1000 16).result = some (.ok [0x68, 0x69]) := by
  have hrec : helloPaging.Recursive := ⟨⟨2, true, false, false⟩, by decide, rfl⟩
  refine ((user_copies hrec).2.2 0x1000 16).2 [0x68, 0x69] ?_ (by decide) (fun i hi => ?_)
    (by decide)
  · exact ⟨by decide, by decide, by decide, by decide, trivial⟩
  · have hpage : helloPaging.Accessible false 0x1000 :=
      ⟨by decide, ⟨3, true, true, false⟩, ⟨4, false, true, false⟩, by decide, rfl, by decide, rfl,
        nofun⟩
    refine (Paging.accessible_page ?_).mpr hpage
    have : i ≤ 2 := hi
    show (4096 + i) / 4096 = 1
    omega

end ManiOS.Mm
