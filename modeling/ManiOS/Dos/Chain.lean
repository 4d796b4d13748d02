import ManiOS.Dos.Arena
import ManiOS.Lib.Blocks

/-!
# The chain of blocks

`Chain mem a l` says that the headers from segment `a` on describe the blocks of `l`, one
behind the other up to A000h, where the last one and no other has the letter `'Z'`.
`mcb_join` and `mcb_split` are changes of that list: `absorb` and `cut`.
-/

namespace ManiOS.Dos

open Function (update update_self update_of_ne)
open List

/-! ## Headers -/

def Header (mem : Mem) (m : Nat) (type : UInt8) (owner size : Nat) : Prop :=
  rd8 m 0 mem = type ∧ rd16 m 1 mem = owner ∧ rd16 m 3 mem = size

def SameHeader (m : Nat) (mem mem' : Mem) : Prop :=
  rd8 m 0 mem' = rd8 m 0 mem ∧ rd16 m 1 mem' = rd16 m 1 mem ∧ rd16 m 3 mem' = rd16 m 3 mem

variable {mem mem' mem'' : Mem} {m k o s x : Nat} {t : UInt8}

theorem SameHeader.refl : SameHeader m mem mem := ⟨rfl, rfl, rfl⟩

theorem SameHeader.trans (h : SameHeader m mem mem') (h' : SameHeader m mem' mem'') :
    SameHeader m mem mem'' :=
  ⟨h'.1.trans h.1, h'.2.1.trans h.2.1, h'.2.2.trans h.2.2⟩

theorem Header.congr (h : Header mem m t o s) (hs : SameHeader m mem mem') : Header mem' m t o s :=
  ⟨hs.1.trans h.1, hs.2.1.trans h.2.1, hs.2.2.trans h.2.2⟩

section

variable (hm : m < 65536)
include hm

variable {off : Nat}

theorem lin_eq (hoff : off < 16) : lin m off = m * 16 + off := by
  rw [lin, memSize]
  omega

theorem lin_succ (hoff : off + 1 < 16) : (lin m off + 1) % memSize = m * 16 + off + 1 := by
  rw [lin_eq hm (by omega), memSize]
  omega

theorem rd16_congr (hoff : off + 1 < 16) (h0 : mem' (m * 16 + off) = mem (m * 16 + off))
    (h1 : mem' (m * 16 + off + 1) = mem (m * 16 + off + 1)) : rd16 m off mem' = rd16 m off mem := by
  rw [rd16, rd16, lin_succ hm hoff, lin_eq hm (by omega), h0, h1]

theorem sameHeader_update {v : UInt8} (hx : x / 16 = m → 5 ≤ x % 16) :
    SameHeader m mem (update mem x v) := by
  have hbyte : ∀ off < 5, update mem x v (m * 16 + off) = mem (m * 16 + off) := fun off hoff =>
    update_of_ne (by rintro rfl; omega) ..
  refine ⟨?_, rd16_congr hm (by decide) (hbyte 1 (by decide)) (hbyte 2 (by decide)),
    rd16_congr hm (by decide) (hbyte 3 (by decide)) (hbyte 4 (by decide))⟩
  rw [rd8, rd8, lin_eq hm (by decide), hbyte 0 (by decide)]

theorem sameHeader_wr8 {v : UInt8} (hk : k < 65536) (hoff : off < 16)
    (hne : m ≠ k) : SameHeader m mem (wr8 k off v mem) := by
  rw [wr8, lin_eq hk hoff]
  exact sameHeader_update hm fun h => by omega

theorem sameHeader_wr16 {v : Nat} (hk : k < 65536) (hoff : off + 1 < 16)
    (hne : m ≠ k) : SameHeader m mem (wr16 k off v mem) := by
  rw [wr16, lin_succ hk hoff, lin_eq hk (by omega)]
  exact (sameHeader_update hm fun h => by omega).trans (sameHeader_update hm fun h => by omega)

theorem rd16_wr16 {v : Nat} (hoff : off + 1 < 16) (hv : v < 65536) :
    rd16 m off (wr16 m off v mem) = v := by
  rw [rd16, wr16, lin_succ hm hoff, lin_eq hm (by omega), update_self,
    update_of_ne (by omega), update_self, UInt8.toNat_ofNat', UInt8.toNat_ofNat']
  omega

end

theorem Header.setType {t' : UInt8} (h : Header mem m t o s) (hm : m < 65536) :
    Header (wr8 m 0 t' mem) m t' o s := by
  have hbyte : ∀ off, 0 < off → wr8 m 0 t' mem (m * 16 + off) = mem (m * 16 + off) := by
    intro off hoff
    rw [wr8, lin_eq hm (by decide), update_of_ne (by omega)]
  refine ⟨by rw [rd8, wr8, update_self], ?_, ?_⟩
  · rw [← h.2.1, rd16_congr hm (by decide) (hbyte 1 (by decide)) (hbyte 2 (by decide))]
  · rw [← h.2.2, rd16_congr hm (by decide) (hbyte 3 (by decide)) (hbyte 4 (by decide))]

theorem Header.setOwner {o' : Nat} (h : Header mem m t o s) (hm : m < 65536) (ho : o' < 65536) :
    Header (wr16 m 1 o' mem) m t o' s := by
  have hbyte : ∀ off, off < 1 ∨ 2 < off → wr16 m 1 o' mem (m * 16 + off) = mem (m * 16 + off) := by
    intro off hoff
    rw [wr16, lin_succ hm (by decide), lin_eq hm (by decide), update_of_ne (by omega),
      update_of_ne (by omega)]
  refine ⟨?_, rd16_wr16 hm (by decide) ho, ?_⟩
  · rw [← h.1, rd8, rd8, lin_eq hm (by decide), hbyte 0 (by decide)]
  · rw [← h.2.2, rd16_congr hm (by decide) (hbyte 3 (by decide)) (hbyte 4 (by decide))]

theorem Header.setSize {s' : Nat} (h : Header mem m t o s) (hm : m < 65536) (hs : s' < 65536) :
    Header (wr16 m 3 s' mem) m t o s' := by
  have hbyte : ∀ off, off < 3 → wr16 m 3 s' mem (m * 16 + off) = mem (m * 16 + off) := by
    intro off hoff
    rw [wr16, lin_succ hm (by decide), lin_eq hm (by decide), update_of_ne (by omega),
      update_of_ne (by omega)]
  refine ⟨?_, ?_, rd16_wr16 hm (by decide) hs⟩
  · rw [← h.1, rd8, rd8, lin_eq hm (by decide), hbyte 0 (by decide)]
  · rw [← h.2.1, rd16_congr hm (by decide) (hbyte 1 (by decide)) (hbyte 2 (by decide))]

variable {owner : Nat}

/-- The three fields of a header that was not one before. -/
theorem header_new {size : Nat} (hm : m < 65536) (ho : owner < 65536) (hs : size < 65536) :
    Header (wr16 m 3 size (wr16 m 1 owner (wr8 m 0 t mem))) m t owner size := by
  have h : Header (wr8 m 0 t mem) m t (rd16 m 1 (wr8 m 0 t mem)) (rd16 m 3 (wr8 m 0 t mem)) :=
    ⟨by rw [rd8, wr8, update_self], rfl, rfl⟩
  exact (h.setOwner hm ho).setSize hm hs

/-! ## Chains -/

/-- A block: the segment of its header, its owner and its size. -/
structure Mcb where
  seg : Nat
  owner : Nat
  size : Nat
deriving DecidableEq, Repr

/-- What is of interest for the interval that a block fills. -/
def Mcb.block (b : Mcb) : Lib.Block := ⟨b.seg, b.size, decide (b.owner = 0)⟩

/-- The blocks from segment `a` on. -/
def Chain (mem : Mem) : Nat → List Mcb → Prop
  | a, [] => a = arenaEnd
  | a, b :: l => b.seg = a ∧
      Header mem a (if l = [] then lastBlock else moreBlocks) b.owner b.size ∧
      Chain mem (a + 1 + b.size) l

/-- Blocks from segment `a` to segment `p`, none of which is the last. -/
def Before (mem : Mem) : Nat → List Mcb → Nat → Prop
  | a, [], p => a = p
  | a, b :: l, p => b.seg = a ∧ Header mem a moreBlocks b.owner b.size ∧
      Before mem (a + 1 + b.size) l p

variable {a p : Nat} {b c : Mcb} {l pre : List Mcb}

theorem Chain.length_le (h : Chain mem a l) : a + l.length ≤ arenaEnd := by
  induction l generalizing a with
  | nil => exact le_of_eq h
  | cons b l ih =>
    have := ih h.2.2
    rw [length_cons]
    omega

theorem Chain.bounds (h : Chain mem a (b :: l)) : a + 1 + b.size ≤ arenaEnd ∧ a < 65536 := by
  have := h.2.2.length_le
  rw [arenaEnd] at *
  omega

section

variable (h : Chain mem a l)
include h

theorem Chain.seg_le (hb : b ∈ l) : a ≤ b.seg ∧ b.seg + 1 + b.size ≤ arenaEnd := by
  induction l generalizing a with
  | nil => exact (not_mem_nil hb).elim
  | cons c l ih =>
    rcases mem_cons.mp hb with rfl | hb
    · exact ⟨le_of_eq h.1.symm, by rw [h.1]; exact h.bounds.1⟩
    · obtain ⟨hlo, hhi⟩ := ih h.2.2 hb
      exact ⟨by omega, hhi⟩

theorem Chain.frame_of_mem (hs : ∀ b ∈ l, SameHeader b.seg mem mem') : Chain mem' a l := by
  induction l generalizing a with
  | nil => exact h
  | cons b l ih =>
    have hb := hs b mem_cons_self
    rw [h.1] at hb
    exact ⟨h.1, h.2.1.congr hb, ih h.2.2 (forall_mem_cons.mp hs).2⟩

theorem Chain.frame (hs : ∀ m, a ≤ m → m < 65536 → SameHeader m mem mem') : Chain mem' a l :=
  h.frame_of_mem fun b hb => by
    obtain ⟨hlo, hhi⟩ := h.seg_le hb
    exact hs b.seg hlo (by rw [arenaEnd] at hhi; omega)

/-- No header is in the data of a block. -/
theorem Chain.apart (hb : b ∈ l) (hc : c ∈ l) : c.seg ≤ b.seg ∨ b.seg + b.size < c.seg := by
  induction l generalizing a with
  | nil => exact (not_mem_nil hb).elim
  | cons d l ih =>
    rcases mem_cons.mp hb with rfl | hb' <;> rcases mem_cons.mp hc with rfl | hc'
    · exact .inl le_rfl
    · have := (h.2.2.seg_le hc').1
      rw [h.1]
      omega
    · have := (h.2.2.seg_le hb').1
      rw [h.1]
      omega
    · exact ih h.2.2 hb' hc'

theorem Chain.inj (hb : b ∈ l) (hc : c ∈ l) (hseg : b.seg = c.seg) : b = c := by
  induction l generalizing a with
  | nil => exact (not_mem_nil hb).elim
  | cons d l ih =>
    rcases mem_cons.mp hb with rfl | hb' <;> rcases mem_cons.mp hc with rfl | hc'
    · rfl
    · have := (h.2.2.seg_le hc').1
      rw [← hseg, h.1] at this
      omega
    · have := (h.2.2.seg_le hb').1
      rw [hseg, h.1] at this
      omega
    · exact ih h.2.2 hb' hc'

theorem Chain.writeData {v : UInt8} (hb : b ∈ l) (hlo : b.seg < x / 16)
    (hhi : x / 16 ≤ b.seg + b.size) : Chain (update mem x v) a l :=
  h.frame_of_mem fun c hc => by
    have hend := (h.seg_le hc).2
    rw [arenaEnd] at hend
    refine sameHeader_update (by omega) fun heq => ?_
    rcases h.apart hb hc with hle | hlt <;> omega

end

theorem Chain.valid (h : Chain mem a (b :: l)) : mcbValid a mem = true := by
  obtain ⟨-, ⟨htype, -, hsize⟩, hrest⟩ := h
  rw [mcbValid, htype, hsize]
  have hle := hrest.length_le
  cases l with
  | nil =>
    have : a + 1 + b.size = arenaEnd := hrest
    simp [this]
  | cons c l =>
    rw [if_neg nofun]
    refine decide_eq_true ⟨.inl rfl, by omega, .inl (by decide)⟩

theorem Before.frame (h : Before mem a pre p)
    (hs : ∀ m < p, SameHeader m mem mem') : Before mem' a pre p ∧ a ≤ p := by
  induction pre generalizing a with
  | nil => exact ⟨h, le_of_eq h⟩
  | cons b l ih =>
    obtain ⟨hrest, hle⟩ := ih h.2.2
    exact ⟨⟨h.1, h.2.1.congr (hs a (by omega)), hrest⟩, by omega⟩

theorem Before.snoc (h : Before mem a pre p) (hb : b.seg = p)
    (hh : Header mem p moreBlocks b.owner b.size) : Before mem a (pre ++ [b]) (p + 1 + b.size) := by
  induction pre generalizing a with
  | nil =>
    cases h
    exact ⟨hb, hh, rfl⟩
  | cons c l ih => exact ⟨h.1, h.2.1, ih h.2.2⟩

theorem Before.append (h : Before mem a pre p) (hc : Chain mem p (b :: l)) :
    Chain mem a (pre ++ b :: l) := by
  induction pre generalizing a with
  | nil =>
    cases h
    exact hc
  | cons c pre ih =>
    refine ⟨h.1, ?_, ih h.2.2⟩
    rw [if_neg (by simp)]
    exact h.2.1

/-! ## Joining -/

/-- The free blocks behind `b` become part of it. -/
def absorb (b : Mcb) : List Mcb → List Mcb
  | [] => [b]
  | c :: l => if c.owner = 0 then absorb { b with size := b.size + 1 + c.size } l else b :: c :: l

theorem absorb_cons (b : Mcb) (l : List Mcb) :
    ∃ size l', absorb b l = { b with size } :: l' ∧ l'.length ≤ l.length := by
  induction l generalizing b with
  | nil => exact ⟨b.size, [], rfl, le_rfl⟩
  | cons c l ih =>
    rw [absorb]
    split
    next =>
      obtain ⟨size, l', hl', hle⟩ := ih { b with size := b.size + 1 + c.size }
      exact ⟨size, l', hl', Nat.le_succ_of_le hle⟩
    next => exact ⟨b.size, c :: l, rfl, le_rfl⟩

theorem mcbJoin_spec (n : Nat) (hn : l.length < n) (h : Chain mem a (b :: l)) :
    ∃ mem', mcbJoin n a mem = some mem' ∧ Chain mem' a (absorb b l) ∧
      ∀ m < 65536, m ≠ a → SameHeader m mem mem' := by
  induction l generalizing b mem n with
  | nil =>
    obtain ⟨n, rfl⟩ : ∃ k, n = k + 1 := ⟨n - 1, by rw [length_nil] at hn; omega⟩
    refine ⟨mem, ?_, h, fun _ _ _ => .refl⟩
    rw [mcbJoin, h.2.1.1, if_neg (by decide)]
  | cons c l ih =>
    rw [length_cons] at hn
    obtain ⟨n, rfl⟩ : ∃ k, n = k + 1 := ⟨n - 1, by omega⟩
    obtain ⟨hseg, ⟨htype, howner, hsize⟩, hrest⟩ := h
    have hsmall : a + 1 + b.size + 1 + c.size ≤ arenaEnd := hrest.bounds.1
    have hlim : arenaEnd < 65536 := by decide
    have hnext : u16 (a + 1 + rd16 a 3 mem) = a + 1 + b.size := by
      rw [u16]
      omega
    have hvalid := hrest.valid
    obtain ⟨hseg', ⟨htype', howner', hsize'⟩, hrest'⟩ := hrest
    rw [if_neg (cons_ne_nil c l)] at htype
    rw [mcbJoin, htype, if_pos rfl]
    dsimp only
    rw [hnext, hvalid, howner', absorb]
    by_cases hfree : c.owner = 0
    · rw [if_neg (by simp [hfree]), if_pos hfree, hsize, hsize']
      have hsum : u16 (b.size + 1 + c.size) = b.size + 1 + c.size := by
        rw [u16]
        omega
      rw [hsum]
      have hframe₁ : ∀ m < 65536, m ≠ a →
          SameHeader m mem (wr16 a 3 (b.size + 1 + c.size) mem) := fun m hm hne =>
        sameHeader_wr16 hm (by omega) (by decide) hne
      rw [(hframe₁ (a + 1 + b.size) (by omega) (by omega)).1, htype']
      have hframe₂ : ∀ m < 65536, m ≠ a → SameHeader m mem
          (wr8 a 0 (if l = [] then lastBlock else moreBlocks)
            (wr16 a 3 (b.size + 1 + c.size) mem)) := fun m hm hne =>
        (hframe₁ m hm hne).trans (sameHeader_wr8 hm (by omega) (by decide) hne)
      have hheader : Header mem a moreBlocks b.owner b.size := ⟨htype, howner, hsize⟩
      have hjoined : Chain (wr8 a 0 (if l = [] then lastBlock else moreBlocks)
          (wr16 a 3 (b.size + 1 + c.size) mem)) a
          ({ b with size := b.size + 1 + c.size } :: l) := by
        refine ⟨hseg, (hheader.setSize (by omega) (by omega)).setType (by omega), ?_⟩
        have : a + 1 + (b.size + 1 + c.size) = a + 1 + b.size + 1 + c.size := by omega
        rw [this]
        exact hrest'.frame fun m hm hm' => hframe₂ m hm' (by omega)
      obtain ⟨mem', hmem', hchain, hframe⟩ := ih n (by omega) hjoined
      exact ⟨mem', hmem', hchain, fun m hm hne => (hframe₂ m hm hne).trans (hframe m hm hne)⟩
    · rw [if_pos (.inr hfree), if_neg hfree]
      refine ⟨mem, rfl, ⟨hseg, ⟨?_, howner, hsize⟩, hseg', ⟨htype', howner', hsize'⟩, hrest'⟩,
        fun _ _ _ => .refl⟩
      rw [htype, if_neg (cons_ne_nil c l)]

/-! ## Splitting -/

/-- A block gets at most `w` paragraphs.  What it loses is free, with the free blocks
behind it. -/
def cut (w : Nat) (b : Mcb) (l : List Mcb) : List Mcb :=
  if b.size ≤ w then b :: l
  else { b with size := w } :: absorb ⟨b.seg + 1 + w, 0, b.size - w - 1⟩ l

/-- `mcb_split` changes no header before the block. -/
theorem mcbSplit_spec (w : Nat) (h : Chain mem a (b :: l)) :
    ∃ mem', mcbSplit a w mem = some mem' ∧ Chain mem' a (cut w b l) ∧
      ∀ m < a, SameHeader m mem mem' := by
  obtain ⟨hle, hsmall⟩ := h.bounds
  have hlim : arenaEnd < 65536 := by decide
  have hlen := h.2.2.length_le
  obtain ⟨hseg, hheader, hrest⟩ := h
  rw [mcbSplit, hheader.2.2, cut]
  by_cases hw : b.size ≤ w
  · rw [if_pos hw, if_pos hw]
    exact ⟨mem, rfl, ⟨hseg, hheader, hrest⟩, fun _ _ => .refl⟩
  · have hnext : u16 (a + 1 + w) = a + 1 + w := by
      rw [u16]
      omega
    rw [if_neg hw, if_neg hw, hheader.1]
    dsimp only
    rw [hnext]
    generalize ht : (if l = [] then lastBlock else moreBlocks) = t at hheader
    -- the new header, and then the old one
    have hnew : Header (wr16 (a + 1 + w) 3 (b.size - w - 1) (wr16 (a + 1 + w) 1 0
        (wr8 (a + 1 + w) 0 t mem))) (a + 1 + w) t 0 (b.size - w - 1) :=
      header_new (by omega) (by decide) (by omega)
    have hframe₁ : ∀ m < 65536, m ≠ a + 1 + w → SameHeader m mem
        (wr16 (a + 1 + w) 3 (b.size - w - 1) (wr16 (a + 1 + w) 1 0
          (wr8 (a + 1 + w) 0 t mem))) := fun m hm hne =>
      ((sameHeader_wr8 hm (by omega) (by decide) hne).trans
        (sameHeader_wr16 hm (by omega) (by decide) hne)).trans
        (sameHeader_wr16 hm (by omega) (by decide) hne)
    generalize wr16 (a + 1 + w) 3 (b.size - w - 1) (wr16 (a + 1 + w) 1 0
      (wr8 (a + 1 + w) 0 t mem)) = mem1 at hnew hframe₁ ⊢
    have hold : Header (wr16 a 3 w (wr8 a 0 moreBlocks mem1)) a moreBlocks b.owner w :=
      ((hheader.congr (hframe₁ a hsmall (by omega))).setType hsmall).setSize hsmall (by omega)
    have hframe₂ : ∀ m < 65536, m ≠ a →
        SameHeader m mem1 (wr16 a 3 w (wr8 a 0 moreBlocks mem1)) := fun m hm hne =>
      (sameHeader_wr8 hm hsmall (by decide) hne).trans (sameHeader_wr16 hm hsmall (by decide) hne)
    have hchain : Chain (wr16 a 3 w (wr8 a 0 moreBlocks mem1)) (a + 1 + w)
        (⟨b.seg + 1 + w, 0, b.size - w - 1⟩ :: l) := by
      refine ⟨by rw [hseg], ?_, ?_⟩
      · rw [ht]
        exact hnew.congr (hframe₂ _ (by omega) (by omega))
      · have : a + 1 + w + 1 + (b.size - w - 1) = a + 1 + b.size := by omega
        rw [this]
        exact hrest.frame fun m hm hm' =>
          (hframe₁ m hm' (by omega)).trans (hframe₂ m hm' (by omega))
    obtain ⟨mem', hmem', hchain', hframe⟩ := mcbJoin_spec arenaEnd (by omega) hchain
    refine ⟨mem', hmem', ⟨hseg, ?_, hchain'⟩, fun m hm => ?_⟩
    · obtain ⟨size, l', hl', -⟩ := absorb_cons ⟨b.seg + 1 + w, 0, b.size - w - 1⟩ l
      rw [hl']
      exact hold.congr (hframe a hsmall (by omega))
    · exact ((hframe₁ m (by omega) (by omega)).trans (hframe₂ m (by omega) (by omega))).trans
        (hframe m (by omega) (by omega))

theorem Chain.setOwner (h : Chain mem a (b :: l)) (ho : owner < 65536) :
    Chain (wr16 a 1 owner mem) a ({ b with owner } :: l) ∧
      ∀ m < 65536, m ≠ a → SameHeader m mem (wr16 a 1 owner mem) := by
  have hsmall := h.bounds.2
  have hframe : ∀ m < 65536, m ≠ a → SameHeader m mem (wr16 a 1 owner mem) := fun m hm hne =>
    sameHeader_wr16 hm hsmall (by decide) hne
  refine ⟨⟨h.1, h.2.1.setOwner hsmall ho, h.2.2.frame fun m hm hm' => ?_⟩, hframe⟩
  exact hframe m hm' (by omega)

def give (seg owner : Nat) (b : Mcb) : Mcb := if b.seg = seg then { b with owner } else b

theorem give_seg (seg owner : Nat) (b : Mcb) : (give seg owner b).seg = b.seg := by
  rw [give]
  split <;> rfl

theorem Chain.give (h : Chain mem a l) (hb : b ∈ l) (ho : owner < 65536) :
    Chain (wr16 b.seg 1 owner mem) a (l.map (give b.seg owner)) := by
  induction l generalizing a with
  | nil => exact (not_mem_nil hb).elim
  | cons d l ih =>
    have hsmall := h.bounds.2
    rw [map_cons, Dos.give]
    by_cases hd : d.seg = b.seg
    · have htail : l.map (Dos.give b.seg owner) = l := by
        refine (map_congr_left fun c hc => if_neg ?_).trans (map_id l)
        have := (h.2.2.seg_le hc).1
        rw [← hd, h.1]
        omega
      have hset := (h.setOwner ho).1
      rw [← h.1, hd] at hset
      rw [if_pos hd, htail, hd, ← h.1, hd]
      exact hset
    · have hmem : b ∈ l := (List.mem_cons.mp hb).resolve_left fun heq => hd (by rw [heq])
      have hend := (h.2.2.seg_le hmem).2
      rw [arenaEnd] at hend
      rw [if_neg hd]
      refine ⟨h.1, ?_, ih h.2.2 hmem⟩
      rw [h.1] at hd
      simp only [map_eq_nil_iff]
      exact h.2.1.congr (sameHeader_wr16 hsmall (by omega) (by decide) hd)

/-! ## The loop over the blocks -/

variable {ρ σ : Type} {invalid : ρ} {done : σ → ρ} {acc : σ}
  {body : Nat → σ → Mem → Option ((ρ ⊕ σ) × Mem)} (I : List Mcb → σ → List Mcb → Prop)
  {Q : ρ → Mem → Prop}
  (hbody : ∀ pre acc mem p b l, Before mem a pre p → Chain mem p (b :: l) → I pre acc (b :: l) →
    (∃ r mem', body p acc mem = some (.inl r, mem') ∧ Q r mem') ∨
    ∃ acc' mem' b' l', body p acc mem = some (.inr acc', mem') ∧ Chain mem' p (b' :: l') ∧
      (∀ m < p, SameHeader m mem mem') ∧ l'.length ≤ l.length ∧ I (pre ++ [b']) acc' l')
  (hdone : ∀ pre acc mem, Chain mem a pre → I pre acc [] → Q (done acc) mem)
include hbody hdone

/-- The rule for a loop over the blocks.  `I` relates the blocks that it has passed, its
variable and the blocks that are left. -/
theorem eachBlock_rule (n : Nat) (hn : l.length < n) (hpre : Before mem a pre p)
    (hchain : Chain mem p (b :: l)) (hI : I pre acc (b :: l)) :
    ∃ r mem', eachBlock invalid done body n p acc mem = some (r, mem') ∧ Q r mem' := by
  induction n generalizing acc mem pre p b l with
  | zero => exact absurd hn (Nat.not_lt_zero _)
  | succ n ih =>
    have hlt : ¬ arenaEnd ≤ p := by
      have := hchain.bounds.1
      omega
    rw [eachBlock, if_neg hlt, hchain.valid]
    rcases hbody pre acc mem p b l hpre hchain hI with
      ⟨r, mem', hr, hQ⟩ | ⟨acc', mem', b', l', hr, hchain', hframe, hlen, hI'⟩
    · exact ⟨r, mem', by rw [hr]; rfl, hQ⟩
    · rw [hr, Option.bind_some]
      dsimp only
      have hpre' := (hpre.frame hframe).1
      rw [hchain'.2.1.1, hchain'.2.1.2.2]
      cases l' with
      | nil =>
        exact ⟨_, mem', rfl, hdone _ _ _ (hpre'.append hchain') hI'⟩
      | cons c l' =>
        rw [length_cons] at hlen
        refine ih (by omega) (hpre'.snoc hchain'.1 ?_) hchain'.2.2 hI'
        have := hchain'.2.1
        rwa [if_neg (cons_ne_nil c l')] at this

theorem eachBlock_arena (h : Chain mem a l) (ha : a < arenaEnd) (hI : I [] acc l) :
    ∃ r mem', eachBlock invalid done body arenaEnd a acc mem = some (r, mem') ∧ Q r mem' := by
  cases l with
  | nil => exact absurd h (ne_of_lt ha)
  | cons b l =>
    have hlen := h.length_le
    rw [length_cons] at hlen
    have hstart : Before mem a [] a := rfl
    exact eachBlock_rule I hbody hdone arenaEnd (by omega) hstart h hI

end ManiOS.Dos
