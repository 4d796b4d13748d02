import ManiOS.Fat.Chains

/-!
# The contents of a node

The bytes of a directory or a file are in the fixed root region or in the
clusters of a chain (`Place`).  `node_read` copies them out, and `node_write`
puts bytes there, growing a chain as it goes.

`node_write` grows a chain and fills it in turns, and its loop is the same for
a file and a directory.  `ensures_nodeWriteFrom` is that loop once, for any
invariant that one call of `cluster_for_write` and one patch of a sector keep.
-/

namespace ManiOS.Fat

open ManiOS.Lib List

/-- Where the bytes of a node are. -/
inductive Place where
  | root
  | clusters (l : List Nat)

variable (g : Geometry)

def Place.size : Place → Nat
  | .root => g.rootBytes
  | .clusters l => l.length * g.bytesPerCluster

def Disk.byteAt (d : Disk) : Place → Nat → UInt8
  | .root, o => d.root o
  | .clusters l, o => d.data (l.getD (o / g.bytesPerCluster) 0) (o % g.bytesPerCluster)

def Disk.put (d : Disk) (s : Place) (off : Nat) (buf : Buf) (m : Nat) : Disk :=
  match s with
  | .root => d.putRoot off buf m
  | .clusters l =>
    { d with data := fun c i =>
        let o := l.idxOf c * g.bytesPerCluster + i
        if c ∈ l ∧ i < g.bytesPerCluster ∧ off ≤ o ∧ o < off + m then buf (o - off)
        else d.data c i }

/-- A node whose contents are at a place. -/
def NodeAt (d : Disk) (n : FatNode) : Place → Prop
  | .root => n.fixedRoot = true
  | .clusters l => OnChain g d n l

/-- A node whose contents are at a place, with a cursor that a read at `off` may
use. -/
def ReadsAt (d : Disk) (n : FatNode) (off : Nat) : Place → Prop
  | .root => n.fixedRoot = true
  | .clusters l => OnChainAt g d n l (off / g.bytesPerCluster)

/-- Two nodes that differ in their cursor only. -/
def Moved (n n' : FatNode) : Prop :=
  ∃ i c, n' = { n with cursorIndex := i, cursorCluster := c }

theorem Moved.refl (n : FatNode) : Moved n n := ⟨n.cursorIndex, n.cursorCluster, rfl⟩

theorem Moved.trans {a b c : FatNode} (h : Moved a b) (h' : Moved b c) : Moved a c := by
  obtain ⟨i, x, rfl⟩ := h
  obtain ⟨j, y, rfl⟩ := h'
  exact ⟨j, y, rfl⟩

theorem Moved.seek (n : FatNode) (l : List Nat) (index : Nat) : Moved n (n.seek l index) := by
  unfold FatNode.seek
  split
  next c _ => exact ⟨index, c, rfl⟩
  next => exact .refl n

section Places

variable {g : Geometry} {agree : Prop} {d : Disk} {n : FatNode} {s : Place} {l : List Nat}
  {off : Nat} {len : Nat} {buf : Buf} {sync : FatM FatNode Unit}

theorem NodeAt.at (h : NodeAt g d n s) (off : Nat) : ReadsAt g d n off s := by
  cases s with
  | root => exact h
  | clusters l => exact OnChain.at h _

theorem div_lt_of_lt_size (h : off < (Place.clusters l).size g) :
    off / g.bytesPerCluster < l.length :=
  Nat.div_lt_of_lt_mul (by rw [mul_comm]; exact h)

variable (hg : g.Usable)
include hg

theorem bpc_pos : 0 < g.bytesPerCluster := by
  have := hg.bpc_eq
  have := hg.spc_pos
  omega

theorem bpc_le : g.bytesPerCluster ≤ 65536 := by
  have := hg.bpc_eq
  have := hg.spc_le
  omega

theorem mod_sector (o : Nat) : o % g.bytesPerCluster % 512 = o % 512 :=
  Nat.mod_mod_of_dvd o ⟨g.sectorsPerCluster, by rw [hg.bpc_eq, mul_comm]⟩

theorem sector_lt : off % g.bytesPerCluster / 512 < g.sectorsPerCluster := by
  have := Nat.mod_lt off (bpc_pos hg)
  rw [hg.bpc_eq] at this ⊢
  omega

theorem sector_in_cluster {j : Nat} (hj : off % 512 + j < 512) :
    off % g.bytesPerCluster + j < g.bytesPerCluster ∧
      (off + j) / g.bytesPerCluster = off / g.bytesPerCluster ∧
      (off + j) % g.bytesPerCluster = off % g.bytesPerCluster + j := by
  have hpos := bpc_pos hg
  have hdvd := hg.bpc_eq
  have hmod := mod_sector hg off
  have hlt : off % g.bytesPerCluster < g.bytesPerCluster := Nat.mod_lt _ hpos
  have hin : off % g.bytesPerCluster + j < g.bytesPerCluster := by
    omega
  have hsplit := Nat.div_add_mod off g.bytesPerCluster
  refine ⟨hin, ?_, ?_⟩
  · rw [← hsplit, add_assoc, Nat.mul_add_div hpos, Nat.div_eq_of_lt hin, add_zero, hsplit]
  · rw [← hsplit, add_assoc, Nat.mul_add_mod, Nat.mod_eq_of_lt hin, hsplit]

theorem chunk_fits {L m : Nat} (hidx : off / g.bytesPerCluster < L)
    (hm : off % 512 + m ≤ 512) : off + m ≤ L * g.bytesPerCluster := by
  have hmul := Nat.mul_le_mul_right g.bytesPerCluster hidx
  have hsplit := Nat.div_add_mod off g.bytesPerCluster
  have hlt := Nat.mod_lt off (bpc_pos hg)
  rw [Nat.succ_mul, mul_comm] at hmul
  by_cases h0 : m = 0
  · omega
  · have hin : off % 512 + (m - 1) < 512 := by omega
    obtain ⟨hin', -, -⟩ := sector_in_cluster hg hin
    omega

theorem size_clusters_le (h : d.IsChain g l) :
    (Place.clusters l).size g ≤ 65524 * 65536 := by
  have := Disk.IsChain.length_le hg h
  have := hg.few
  exact Nat.mul_le_mul (by omega) (bpc_le hg)

theorem ReadsAt.size_le (h : ReadsAt g d n off s) : s.size g ≤ 65524 * 65536 := by
  cases s with
  | root =>
    have := hg.rootBytes_lt
    show g.rootBytes ≤ _
    omega
  | clusters l => exact size_clusters_le hg h.chain

/-! ## Reading -/

/-- One turn of `node_read`. -/
theorem ensures_readChunk (h : ReadsAt g d n off s) (hoff : off < s.size g) (len : Nat)
    {post : Except Stop (Option (Buf × Nat)) → FatNode → Disk → Prop}
    (hpost : ∀ (b : Buf) n', Moved n n' → NodeAt g d n' s →
      (∀ j, off % 512 + j < 512 → b j = d.byteAt g s (off + j)) →
      post (.ok (some (b, min (512 - off % 512) len))) n' d) :
    Does g agree (readChunk g off len) n d post := by
  cases s with
  | root =>
    have hroot : n.fixedRoot = true := h
    have hlt : off < g.rootBytes := hoff
    have hsec : g.rootStart + off / 512 < g.dataStart := by
      have := hg.root_fits
      omega
    refine .bind (.get_bind ?_)
    rw [if_pos hroot, if_neg (by omega)]
    refine .pure (.bind (ensures_readRoot hsec fun b hb => ?_))
    refine .pure (hpost _ n (.refl n) hroot fun j hj => ?_)
    show b (off % 512 + j) = d.root (off + j)
    rw [hb _ (by omega)]
    congr 1
    omega
  | clusters l =>
    have hon : OnChainAt g d n l (off / g.bytesPerCluster) := h
    have hidx := div_lt_of_lt_size hoff
    have hcount := Disk.IsChain.length_le hg hon.chain
    have hv : validCluster g (l.getD (off / g.bytesPerCluster) 0) = true := by
      rw [getD_eq_getElem _ _ hidx]
      exact hon.chain.cells _ (getElem_mem hidx)
    have hnot : ¬ n.fixedRoot = true := by rw [hon.notRoot]; decide
    refine .bind (.get_bind ?_)
    rw [if_neg hnot]
    refine (yields_clusterAt hg hon (by omega)).bind ?_
    rw [if_neg (validCluster_ne_zero hv)]
    refine .pure (.bind (ensures_readData hv (sector_lt hg) fun b hb => ?_))
    refine .pure (hpost _ _ (.seek n l _) (hon.seek hidx) fun j hj => ?_)
    obtain ⟨-, hdiv, hmod⟩ := sector_in_cluster hg hj
    have hmod' := mod_sector hg off
    show b (off % 512 + j) = d.data (l.getD ((off + j) / g.bytesPerCluster) 0) ((off + j) % _)
    rw [hb _ hj, hdiv]
    congr 1
    omega

theorem ensures_nodeReadFrom (left : Nat) :
    ∀ (off done : Nat) (buf : Buf) (n : FatNode), (done < len → ReadsAt g d n off s) →
      done ≤ len → off + (len - done) ≤ s.size g → len - done ≤ left →
      Does g agree (nodeReadFrom g len left off done buf) n d fun r n' d' =>
        r = .ok (len, memcpy buf done (fun j => d.byteAt g s (off + j)) 0 (len - done)) ∧
          d' = d ∧ Moved n n' ∧ (done < len ∨ NodeAt g d n s → NodeAt g d n' s) := by
  induction left with
  | zero =>
    intro off done buf n h hdone hfit hleft
    have heq : done = len := by omega
    subst heq
    refine .pure ⟨?_, rfl, .refl n, fun h => h.resolve_left (lt_irrefl _)⟩
    rw [Nat.sub_self, show memcpy buf done _ 0 0 = buf from
      funext fun i => memcpy_outside (by omega)]
  | succ left ih =>
    intro off done buf n h hdone hfit hleft
    rw [nodeReadFrom]
    by_cases hlt : done < len
    · rw [if_pos hlt]
      have hsize := (h hlt).size_le hg
      refine .bind (.tryCatch ?_)
      refine ensures_readChunk hg (h hlt) (by omega) (len - done) fun b n' hmoved hat hb => ?_
      generalize hchunk : min (512 - off % 512) (len - done) = chunk
      have hu : u32 (off + chunk) = off + chunk := u32_of_lt (by omega)
      show Does g agree (nodeReadFrom g len left (u32 (off + chunk)) (done + chunk)
        (memcpy buf done b 0 chunk)) n' d _
      rw [hu]
      refine (ih (off + chunk) (done + chunk) _ n' (fun _ => hat.at _) (by omega) (by omega)
        (by omega)).mono ?_
      rintro r n'' d' ⟨rfl, rfl, hmoved', hat'⟩
      refine ⟨?_, rfl, hmoved.trans hmoved', fun _ => hat' (.inr hat)⟩
      congr 2
      funext i
      simp only [memcpy, zero_add]
      by_cases h1 : done + chunk ≤ i ∧ i < done + chunk + (len - (done + chunk))
      · rw [if_pos h1, if_pos (by omega)]
        congr 1
        omega
      · rw [if_neg h1]
        by_cases h2 : done ≤ i ∧ i < done + chunk
        · rw [if_pos h2, if_pos (by omega), hb _ (by omega)]
        · rw [if_neg h2, if_neg (by omega)]
    · have heq : done = len := by omega
      subst heq
      rw [if_neg hlt]
      refine .pure ⟨?_, rfl, .refl n, fun h => h.resolve_left hlt⟩
      rw [Nat.sub_self, show memcpy buf done _ 0 0 = buf from
        funext fun i => memcpy_outside (by omega)]

theorem ensures_nodeRead (h : NodeAt g d n s) (buf : Buf) (hfit : off + len ≤ s.size g) :
    Does g agree (nodeRead g off buf len) n d fun r n' d' =>
      r = .ok (len, memcpy buf 0 (fun j => d.byteAt g s (off + j)) 0 len) ∧ d' = d ∧
        Moved n n' ∧ NodeAt g d n' s := by
  refine (ensures_nodeReadFrom hg len off 0 buf n (fun _ => h.at off) (Nat.zero_le _) hfit
    le_rfl).mono ?_
  rintro r n' d' ⟨hr, hd, hm, hat⟩
  exact ⟨hr, hd, hm, hat (.inr h)⟩

theorem ensures_nodeRead_end (h : NodeAt g d n s) (buf : Buf)
    (hend : off = s.size g) (hlen : 0 < len) :
    Does g agree (nodeRead g off buf len) n d fun r n' d' =>
      r = .ok (0, buf) ∧ d' = d ∧ Moved n n' ∧ NodeAt g d n' s := by
  obtain ⟨len, rfl⟩ : ∃ k, len = k + 1 := ⟨len - 1, by omega⟩
  refine .bind (.tryCatch ?_)
  subst hend
  cases s with
  | root =>
    have hroot : n.fixedRoot = true := h
    refine .bind (.get_bind ?_)
    rw [if_pos hroot, if_pos (show Place.root.size g ≥ g.rootBytes from le_rfl)]
    exact .pure (.pure (.pure ⟨rfl, rfl, .refl n, h⟩))
  | clusters l =>
    have hon : OnChain g d n l := h
    have hnot : ¬ n.fixedRoot = true := by rw [hon.notRoot]; decide
    have hcount := Disk.IsChain.length_le hg hon.chain
    have hidx : (Place.clusters l).size g / g.bytesPerCluster = l.length :=
      Nat.mul_div_cancel _ (bpc_pos hg)
    refine .bind (.get_bind ?_)
    rw [if_neg hnot, hidx]
    refine (yields_clusterAt hg (hon.at _) hcount).bind ?_
    rw [getD_eq_default _ _ le_rfl]
    exact .pure (.pure (.pure ⟨rfl, rfl, .seek n l _, hon.seek _⟩))

/-! ## Writing -/

/-- One turn of `node_write` in a chain. -/
theorem ensures_writeChunk
    (hroot : n.fixedRoot = false) {post : Except Stop Nat → FatNode → Disk → Prop}
    (h : Does g agree (clusterForWriteWith g sync (off / g.bytesPerCluster)) n d
      fun r n' d' =>
        match r with
        | .ok c => validCluster g c = true ∧
            post (.ok (min (512 - off % 512) len)) n'
              (d'.putData c (off % g.bytesPerCluster) buf (min (512 - off % 512) len))
        | .error e => post (.error e) n' d') :
    Does g agree (writeChunk g sync off buf len) n d post := by
  have hnot : ¬ n.fixedRoot = true := by rw [hroot]; decide
  refine .get_bind ?_
  rw [if_neg hnot]
  refine .bind (h.mono ?_)
  intro r n' d' hr
  cases r with
  | error e => exact hr
  | ok c =>
    obtain ⟨hc, hpost⟩ := hr
    have hmod := mod_sector hg off
    refine Yields.pure.bind ?_
    have hend : Does g agree (pure (min (512 - off % 512) len)) n'
        (d'.putData c (off % g.bytesPerCluster) buf (min (512 - off % 512) len)) post :=
      .pure hpost
    have hpatch := ensures_patchData hc (sector_lt hg) (by omega) hend
    rw [hmod] at hpatch
    exact hpatch

omit hg

/-- How many clusters a chain of `L` has after `k` bytes were written at `off`. -/
def reach (g : Geometry) (L off k : Nat) : Nat :=
  if k = 0 then L else max L ((off + k - 1) / g.bytesPerCluster + 1)

/-- How `node_write` ends: with every byte written, or with no cluster left for
the next one. -/
def WriteEnds (g : Geometry) (L off len : Nat) (r : Except Stop Nat) (d' : Disk) (k : Nat)
    (l' : List Nat) : Prop :=
  (k = len ∧ r = .ok len ∧ l'.length = reach g L off len) ∨
    (k < len ∧ d'.Full g ∧ L ≤ l'.length ∧ l'.length * g.bytesPerCluster ≤ off + k ∧
      ((k = 0 ∧ r = .error (.rc .enospc)) ∨
        (0 < k ∧ r = .ok k ∧ l'.length * g.bytesPerCluster = off + k)))

/-- The loop of `node_write` in a chain, for an invariant of how many bytes were
written, the node, the disk and the chain. -/
theorem ensures_nodeWriteFrom (hg : g.Usable) {L : Nat}
    {I : Nat → FatNode → Disk → List Nat → Prop} (hon : ∀ k n d l, I k n d l → OnChain g d n l)
    (hgrow : ∀ k n d l, I k n d l → k < len →
      Does g agree (clusterForWriteWith g sync ((off + k) / g.bytesPerCluster)) n d
        fun r n' d' => ∃ l', I k n' d' l' ∧ l.length ≤ l'.length ∧
          ((r = .ok (l'.getD ((off + k) / g.bytesPerCluster) 0) ∧
              l'.length = max l.length ((off + k) / g.bytesPerCluster + 1)) ∨
            (r = .error (.rc .enospc) ∧ d'.Full g ∧ l'.length ≤ (off + k) / g.bytesPerCluster)))
    (hput : ∀ k n d l m, I k n d l → (off + k) / g.bytesPerCluster < l.length →
      (off + k) % 512 + m ≤ 512 → k + m ≤ len →
      I (k + m) n (d.putData (l.getD ((off + k) / g.bytesPerCluster) 0)
        ((off + k) % g.bytesPerCluster) (shift buf k) m) l) (left : Nat) :
    ∀ k n d l, I k n d l → k ≤ len → len - k ≤ left → l.length = reach g L off k →
      Does g agree (nodeWriteFrom g sync buf len left (off + k) k) n d fun r n' d' =>
        ∃ k' l', I k' n' d' l' ∧ WriteEnds g L off len r d' k' l' := by
  induction left with
  | zero =>
    intro k n d l hI hk hleft hlen
    have heq : k = len := by omega
    subst heq
    exact .pure ⟨k, l, hI, .inl ⟨rfl, rfl, hlen⟩⟩
  | succ left ih =>
    intro k n d l hI hk hleft hlen
    rw [nodeWriteFrom]
    by_cases hlt : k < len
    · rw [if_pos hlt]
      have hpos := bpc_pos hg
      refine .bind (.tryCatch (.map ?_))
      refine ensures_writeChunk hg (hon k n d l hI).notRoot ((hgrow k n d l hI hlt).mono ?_)
      rintro r n' d' ⟨l', hI', hmono, ⟨rfl, hlen'⟩ | ⟨rfl, hfull, hle⟩⟩
      · have hidx : (off + k) / g.bytesPerCluster < l'.length := by omega
        have hon' := hon k n' d' l' hI'
        refine ⟨?_, ?_⟩
        · rw [getD_eq_getElem _ _ hidx]
          exact hon'.chain.cells _ (getElem_mem hidx)
        · generalize hchunk : min (512 - (off + k) % 512) (len - k) = chunk
          have hin : (off + k) % 512 + (chunk - 1) < 512 := by omega
          obtain ⟨-, hdiv, -⟩ := sector_in_cluster hg hin
          have hend : off + k + chunk ≤ l'.length * g.bytesPerCluster :=
            chunk_fits hg hidx (by omega)
          have hsize := size_clusters_le hg hon'.chain
          have hu : u32 (off + k + chunk) = off + (k + chunk) := by
            rw [← add_assoc]
            exact u32_of_lt (lt_of_le_of_lt hend (lt_of_le_of_lt hsize (by decide)))
          show Does g agree (nodeWriteFrom g sync buf len left (u32 (off + k + chunk))
            (k + chunk)) n' _ _
          rw [hu]
          refine ih (k + chunk) n' _ l' (hput k n' d' l' chunk hI' hidx (by omega) (by omega))
            (by omega) (by omega) ?_
          -- the chain reaches the cluster of the last byte written
          have hlast : (off + (k + chunk) - 1) / g.bytesPerCluster =
              (off + k) / g.bytesPerCluster := by
            rw [← hdiv]
            congr 1
            omega
          have hprev : (off + k - 1) / g.bytesPerCluster ≤ (off + k) / g.bytesPerCluster :=
            Nat.div_le_div_right (by omega)
          unfold reach at hlen ⊢
          rw [if_neg (by omega), hlast, hlen', hlen]
          by_cases hk0 : k = 0
          · rw [if_pos hk0]
          · rw [if_neg hk0]
            omega
      · -- no cluster left: what was written so far is the result
        have hL : L ≤ l.length := by
          rw [hlen]
          unfold reach
          split
          · exact le_rfl
          · exact le_max_left _ _
        have hend : l'.length * g.bytesPerCluster ≤ off + k := (Nat.le_div_iff_mul_le hpos).mp hle
        by_cases hk0 : k = 0
        · subst hk0
          exact .throw ⟨0, l', hI', .inr ⟨hlt, hfull, by omega, hend, .inl ⟨rfl, rfl⟩⟩⟩
        · show Does g agree (if k ≠ 0 then pure none else throw (.rc .enospc)) n' d' _
          rw [if_pos hk0]
          refine .pure (.pure
            ⟨k, l', hI', .inr ⟨hlt, hfull, by omega, hend, .inr ⟨by omega, rfl, ?_⟩⟩⟩)
          unfold reach at hlen
          rw [if_neg hk0] at hlen
          have hge : off + k - 1 < l'.length * g.bytesPerCluster :=
            (Nat.div_lt_iff_lt_mul hpos).mp (by omega)
          omega
    · have heq : k = len := by omega
      subst heq
      rw [if_neg hlt]
      exact .pure ⟨k, l, hI, .inl ⟨rfl, rfl, hlen⟩⟩

/-! ## Writing inside a node -/

@[simp] theorem Disk.put_next (d : Disk) (s : Place) (off : Nat) (buf : Buf) (m : Nat) :
    (d.put g s off buf m).next = d.next := by
  cases s <;> rfl

theorem Disk.put_data_clusters (d : Disk) (l : List Nat) (off : Nat) (buf : Buf) (m c i : Nat) :
    (d.put g (.clusters l) off buf m).data c i =
      if c ∈ l ∧ i < g.bytesPerCluster ∧ off ≤ l.idxOf c * g.bytesPerCluster + i ∧
          l.idxOf c * g.bytesPerCluster + i < off + m then
        buf (l.idxOf c * g.bytesPerCluster + i - off)
      else d.data c i := rfl

theorem Disk.put_data_outside (d : Disk) {c : Nat} (hc : c ∉ l) (off : Nat) (buf : Buf) (m : Nat) :
    (d.put g (.clusters l) off buf m).data c = d.data c :=
  funext fun _ => if_neg fun h => hc h.1

theorem Disk.put_zero (d : Disk) (l : List Nat) (off : Nat) (buf : Buf) :
    d.put g (.clusters l) off buf 0 = d :=
  Disk.ext rfl rfl (funext fun _ => funext fun _ => if_neg (by omega)) rfl

theorem idxOf_getD {q : Nat} (hnd : l.Nodup) (hq : q < l.length) : l.idxOf (l.getD q 0) = q := by
  rw [getD_eq_getElem _ _ hq]
  exact hnd.idxOf_getElem q hq

theorem Disk.put_putData (hg : g.Usable) (hnd : l.Nodup) {k m : Nat}
    (hq : (off + k) / g.bytesPerCluster < l.length) (hm : (off + k) % 512 + m ≤ 512) :
    (d.put g (.clusters l) off buf k).putData (l.getD ((off + k) / g.bytesPerCluster) 0)
        ((off + k) % g.bytesPerCluster) (shift buf k) m =
      d.put g (.clusters l) off buf (k + m) := by
  have hpos := bpc_pos hg
  have hidx := idxOf_getD hnd hq
  have hmem : l.getD ((off + k) / g.bytesPerCluster) 0 ∈ l := by
    rw [getD_eq_getElem _ _ hq]
    exact getElem_mem hq
  have hsplit := Nat.div_add_mod (off + k) g.bytesPerCluster
  have hin : (off + k) % g.bytesPerCluster + m ≤ g.bytesPerCluster := by
    rcases Nat.eq_zero_or_pos m with rfl | hm0
    · exact le_of_lt (Nat.mod_lt _ hpos)
    · have hlast : (off + k) % 512 + (m - 1) < 512 := by omega
      have hlt := (sector_in_cluster hg hlast).1
      omega
  rw [mul_comm] at hsplit
  refine Disk.ext rfl rfl (funext fun c => funext fun i => ?_) rfl
  rw [Disk.putData_data]
  by_cases hc : c = l.getD ((off + k) / g.bytesPerCluster) 0
  · subst hc
    rw [if_pos rfl, Disk.put_data_clusters, hidx]
    generalize hbase : (off + k) / g.bytesPerCluster * g.bytesPerCluster = base at hsplit ⊢
    generalize (off + k) % g.bytesPerCluster = r at hsplit hin ⊢
    by_cases hr : r ≤ i ∧ i < r + m
    · rw [memcpy_inside hr.1 hr.2, if_pos ⟨hmem, by omega⟩]
      show buf (k + (0 + (i - r))) = _
      congr 1
      omega
    · rw [memcpy_outside (by omega), Disk.put_data_clusters, hidx, hbase]
      by_cases hold : i < g.bytesPerCluster ∧ off ≤ base + i ∧ base + i < off + k
      · rw [if_pos ⟨hmem, hold⟩, if_pos ⟨hmem, by omega⟩]
      · rw [if_neg (fun h => hold h.2), if_neg (fun h => hold (by omega))]
  · rw [if_neg hc, Disk.put_data_clusters, Disk.put_data_clusters]
    by_cases hcl : c ∈ l ∧ i < g.bytesPerCluster
    · -- another cluster of the chain: the new range does not reach it
      have hne : l.idxOf c ≠ (off + k) / g.bytesPerCluster := by
        intro he
        apply hc
        rw [← he, getD_eq_getElem _ _ (idxOf_lt_length_of_mem hcl.1), getElem_idxOf]
      have hout : l.idxOf c * g.bytesPerCluster + i < off + k ∨
          off + k + m ≤ l.idxOf c * g.bytesPerCluster + i := by
        rcases Nat.lt_or_gt_of_ne hne with hlt | hgt
        · have := Nat.mul_le_mul_right g.bytesPerCluster hlt
          rw [Nat.succ_mul] at this
          omega
        · have := Nat.mul_le_mul_right g.bytesPerCluster hgt
          rw [Nat.succ_mul] at this
          omega
      simp only [hcl, true_and]
      by_cases hold : off ≤ l.idxOf c * g.bytesPerCluster + i ∧
          l.idxOf c * g.bytesPerCluster + i < off + k
      · rw [if_pos hold, if_pos (by omega)]
      · rw [if_neg hold, if_neg (by omega)]
    · rw [if_neg (fun h => hcl ⟨h.1, h.2.1⟩), if_neg (fun h => hcl ⟨h.1, h.2.1⟩)]

theorem OnChain.of_next {d' : Disk} (h : OnChain g d n l) (he : d'.next = d.next) :
    OnChain g d' n l :=
  ⟨h.notRoot, h.chain.congr fun _ _ => by rw [he], h.first, h.cursor⟩

theorem yields_nodeWrite_inside (hg : g.Usable) (h : NodeAt g d n s) (sync : FatM FatNode Unit)
    (buf : Buf) (hlen : 0 < len) (hfit : off + len ≤ s.size g)
    (hroot : s = .root → off % 512 + len ≤ 512) :
    Yields (onDisk g agree) (nodeWriteWith g sync off buf len) n d len n (d.put g s off buf len) := by
  refine .get_bind ?_
  cases s with
  | root =>
    have hr : n.fixedRoot = true := h
    have hsec := hroot rfl
    have hfit' : off + len ≤ g.rootBytes := hfit
    rw [if_pos hr, if_neg (by omega), min_eq_left (by omega)]
    obtain ⟨left, rfl⟩ : ∃ k, len = k + 1 := ⟨len - 1, by omega⟩
    refine .bind (.tryCatch (.map ?_))
    refine .get_bind ?_
    have hmin : min (512 - off % 512) (left + 1 - 0) = left + 1 := by omega
    have hrange : g.rootStart + off / 512 < g.dataStart := by
      have := hg.root_fits
      omega
    rw [if_pos hr, hmin]
    refine Yields.pure.bind (ensures_patchRoot hrange (by omega) (.pure ?_))
    show Does g agree (nodeWriteFrom g sync buf (left + 1) left _ (0 + (left + 1))) n
      _ _
    have hshift : shift buf 0 = buf := funext fun i => by rw [shift, zero_add]
    rw [hshift, zero_add]
    cases left with
    | zero => exact Yields.pure
    | succ left =>
      rw [nodeWriteFrom, if_neg (by omega)]
      exact Yields.pure
  | clusters l =>
    have hon : OnChain g d n l := h
    have hnot : ¬ n.fixedRoot = true := by rw [hon.notRoot]; decide
    have hnd := Disk.IsChain.nodup hg hon.chain
    have hidx : ∀ k, k < len → (off + k) / g.bytesPerCluster < l.length := fun k hk =>
      div_lt_of_lt_size (show off + k < (Place.clusters l).size g by omega)
    rw [if_neg hnot]
    refine (ensures_nodeWriteFrom (L := l.length) hg
      (I := fun k n' d' l' => n' = n ∧ l' = l ∧ d' = d.put g (.clusters l) off buf k)
      (by
        rintro k n' d' l' ⟨rfl, rfl, rfl⟩
        exact hon.of_next (Disk.put_next ..))
      (by
        rintro k n' d' l' ⟨rfl, rfl, rfl⟩ hk
        have hon' : OnChain g (d.put g (.clusters l') off buf k) n' l' :=
          hon.of_next (Disk.put_next ..)
        refine (yields_clusterForWrite hg hon' (hidx k hk) sync).post ?_
        have := hidx k hk
        exact ⟨l', ⟨rfl, rfl, rfl⟩, le_rfl, .inl ⟨rfl, by omega⟩⟩)
      (by
        rintro k n' d' l' m ⟨rfl, rfl, rfl⟩ hq hm -
        exact ⟨rfl, rfl, Disk.put_putData hg hnd hq hm⟩)
      len 0 n d l ⟨rfl, rfl, (Disk.put_zero d l off buf).symm⟩ (Nat.zero_le _) le_rfl
      rfl).mono ?_
    rintro r n' d' ⟨k, l', ⟨rfl, rfl, rfl⟩, ⟨rfl, rfl, -⟩ | ⟨hk, -, -, hle, -⟩⟩
    · exact ⟨rfl, rfl, rfl⟩
    · -- the place has room for the next byte
      have : off + len ≤ l'.length * g.bytesPerCluster := hfit
      omega

/-- A write into one sector of a chain that may have to grow for it. -/
theorem ensures_nodeWrite_one (hg : g.Usable)
    (hroot : n.fixedRoot = false) (hlen : 0 < len) (hone : off % 512 + len ≤ 512)
    {post : Except Stop Nat → FatNode → Disk → Prop}
    (h : Does g agree (clusterForWriteWith g sync (off / g.bytesPerCluster)) n d
      fun r n' d' =>
        match r with
        | .ok c => validCluster g c = true ∧
            post (.ok len) n' (d'.putData c (off % g.bytesPerCluster) buf len)
        | .error e => post (.error e) n' d') :
    Does g agree (nodeWriteWith g sync off buf len) n d post := by
  have hnot : ¬ n.fixedRoot = true := by rw [hroot]; decide
  refine .get_bind ?_
  rw [if_neg hnot]
  obtain ⟨left, rfl⟩ : ∃ k, len = k + 1 := ⟨len - 1, by omega⟩
  refine .bind (.tryCatch (.map ?_))
  refine ensures_writeChunk hg hroot (h.mono ?_)
  intro r n' d' hr
  have hmin : min (512 - off % 512) (left + 1 - 0) = left + 1 := by omega
  have hshift : shift buf 0 = buf := funext fun i => by rw [shift, zero_add]
  cases r with
  | error e => exact .throw hr
  | ok c =>
    refine ⟨hr.1, ?_⟩
    rw [hmin, hshift]
    show Does g agree (nodeWriteFrom g sync buf (left + 1) left _ (0 + (left + 1))) n' _ _
    rw [zero_add]
    cases left with
    | zero => exact .pure hr.2
    | succ left =>
      rw [nodeWriteFrom, if_neg (by omega)]
      exact .pure hr.2

end Places

end ManiOS.Fat
