import ManiOS.Fat.Frame

/-!
# Failed writes

`fat_write` takes the clusters it needs one by one, and does not hand them back
when the next one is missing.  So a write that starts past what the free
clusters can reach fails with `-ENOSPC` after it has taken them all.  A write
of `2 ^ 31` bytes or more returns a negative count, with the bytes written and
the size as it was.  `ensures_fatWrite_kept` says that there is no other way a
negative result comes with a change.
-/

namespace ManiOS.Fat

open ManiOS.Lib List
open Disk.IsChain (next_used nodup)

/-- The free clusters, every directory, and every file's chain and contents are
what they were. -/
structure Untouched (g : Geometry) (d d' : Disk) : Prop where
  free : ∀ c, validCluster g c = true → (d'.next c = 0 ↔ d.next c = 0)
  slots : ∀ p s, (d.tree g).IsDir p → Stored g d p s →
    Stored g d' p s ∧ ∀ j < s.slots g, d'.slot g s j = d.slot g s j
  chains : ∀ p i e l, (d.tree g).Holds g p i e l → (d'.tree g).Holds g p i e l
  contents : ∀ p i e l, (d.tree g).Holds g p i e l → e.dir = false → ∀ o < e.size,
    d'.byteAt g (.clusters l) o = d.byteAt g (.clusters l) o

def Disk.freeClusters (g : Geometry) (d : Disk) : List Nat :=
  (List.range g.clusterCount).map (· + 2) |>.filter fun c => d.next c = 0

/-- How many of `len` bytes at `off` there is room for in the chain `l` and the
free clusters. -/
def writeRoom (g : Geometry) (d : Disk) (l : List Nat) (off len : Nat) : Nat :=
  min len ((l.length + (d.freeClusters g).length) * g.bytesPerCluster - off)

/-- When a negative result of `fat_write` comes with no change, for a node whose
slot holds `x`: the entry is deleted; or the free clusters reach the offset or
there are none, and the bytes there is room for are fewer than `2 ^ 31` or are
in the file already. -/
def WriteKept (g : Geometry) (d : Disk) (x : Buf) (off : Nat) (buf : Buf) (len : Nat) : Prop :=
  let l := d.chainFrom g (entryCluster x)
  x 0 = entryDeleted ∨
    (¬ (0 < len ∧ d.freeClusters g ≠ [] ∧
        (l.length + (d.freeClusters g).length) * g.bytesPerCluster ≤ off) ∧
      (writeRoom g d l off len < 2147483648 ∨
        (off + writeRoom g d l off len ≤ l.length * g.bytesPerCluster ∧
          ∀ j < writeRoom g d l off len, off + j < entrySize x →
            buf j = d.byteAt g (.clusters l) (off + j))))

section Kept

variable {g : Geometry} {d d' : Disk} {n : FatNode} {p : Option Nat} {s : Place}
  {i off len size k : Nat} {e : Entry} {l l' : List Nat} {buf : Buf}

theorem mem_freeClusters {c : Nat} :
    c ∈ d.freeClusters g ↔ validCluster g c = true ∧ d.next c = 0 := by
  unfold Disk.freeClusters
  rw [mem_filter, mem_map, validCluster_iff, decide_eq_true_iff]
  refine and_congr_left fun _ => ⟨?_, fun h => ⟨c - 2, ?_, ?_⟩⟩
  · rintro ⟨a, ha, rfl⟩
    rw [mem_range] at ha
    omega
  · rw [mem_range]
    omega
  · omega

theorem nodup_freeClusters : (d.freeClusters g).Nodup := by
  refine .filter _ (.map ?_ nodup_range)
  intro a b h
  exact add_right_cancel h

theorem Wrote.length_le (hg : g.Fat16) (h : Wrote g d s i l off buf size k d' l') :
    l'.length ≤ l.length + (d.freeClusters g).length := by
  obtain ⟨ex, rfl⟩ := h.grown
  have hnd := nodup hg h.chain
  rw [nodup_append] at hnd
  have hsub : ex ⊆ d.freeClusters g := fun c hc => mem_freeClusters.mpr
    ⟨h.chain.cells c (mem_append_right l hc),
      h.fresh c (mem_append_right l hc) fun hl => hnd.2.2 c hl c hc rfl⟩
  have hle := (subperm_of_subset hnd.2.1 hsub).length_le
  rw [length_append]
  omega

theorem Wrote.length_full (hg : g.Fat16) (hl : d.IsChain g l)
    (h : Wrote g d s i l off buf size k d' l') (hfull : d'.Full g) :
    l'.length = l.length + (d.freeClusters g).length := by
  refine le_antisymm (h.length_le hg) ?_
  obtain ⟨ex, rfl⟩ := h.grown
  have hsub : d.freeClusters g ⊆ ex := by
    intro c hc
    obtain ⟨hv, hfree⟩ := mem_freeClusters.mp hc
    by_contra hex
    have hcl : c ∉ l := not_mem_of_free hl hfree
    refine hfull c hv ?_
    rw [h.same c (by rw [mem_append]; exact fun h => h.elim hcl hex), hfree]
  have hle := (subperm_of_subset nodup_freeClusters hsub).length_le
  rw [length_append]
  omega

theorem WriteResult.count (hg : g.Fat16) (hl : d.IsChain g l)
    (h : WriteResult g d s i e l off buf len k d' l') : k = writeRoom g d l off len := by
  have hle := Nat.mul_le_mul_right g.bytesPerCluster (h.wrote.length_le hg)
  have hfit := h.wrote.fits
  unfold writeRoom
  obtain ⟨r, ⟨rfl, -, -⟩ | ⟨hlt, hfull, -, hend, hwhy⟩⟩ := h.ends
  · omega
  · rw [h.wrote.length_full hg hl hfull] at hend hwhy
    omega

theorem Untouched.refl (d : Disk) : Untouched g d d where
  free _ _ := .rfl
  slots _ _ _ h := ⟨h, fun _ _ => rfl⟩
  chains _ _ _ _ h := h
  contents _ _ _ _ _ _ _ _ := rfl

section

variable (hg : g.Fat16)
include hg

/-- A write inside the chain that changes neither the size nor a byte of the
contents changes nothing. -/
theorem Wrote.untouched (hz : (d.tree g).Sized g) (hf : FileAt g d p s i e l)
    (h : Wrote g d s i l off buf e.size k d' l)
    (hsame : ∀ j < k, off + j < e.size → buf j = d.byteAt g (.clusters l) (off + j)) :
    Untouched g d d' := by
  have hr := h.rewritten hg hf
  have honly := hr.only hg hf (hf.size_lt hg)
  obtain ⟨hsp', u⟩ := hr.update hg hf (hf.size_lt hg)
  have hentry : ({ e with first := l.headD 0, size := e.size } : Entry) = e := by
    rw [← hf.holds.first]
  rw [hentry] at u
  -- the file itself is a case of its own, every other one is in the frame
  have hself : ∀ x lx, (d.tree g).Holds g p i x lx → x = e ∧ lx = l := by
    intro x lx hh
    obtain rfl : x = e := Option.some.inj (hh.entry.symm.trans hf.holds.entry)
    exact ⟨rfl, hh.unique hg hf.holds⟩
  refine ⟨fun c hc => ?_, fun q sq hq hsq => ?_, fun q j x lx hh => ?_, ?_⟩
  · by_cases hcl : c ∈ l
    · have hused := (next_used hf.holds.chain hcl)
      have hused' := (next_used h.chain hcl)
      exact iff_of_false hused' hused
    · rw [h.same c hcl]
  · obtain ⟨hsq', hslots⟩ := honly.slots q sq hq hsq
    refine ⟨hsq', fun j hj => ?_⟩
    by_cases hne : (q, j) = (p, i)
    · cases hne
      obtain rfl : s = sq := (hf.stored.place_eq hg).symm.trans (hsq.place_eq hg)
      obtain ⟨-, -, -, he⟩ := hf.slot hg
      rw [h.slot hg hf hj, if_pos rfl, ← hf.holds.first, ← he]
      exact entryWith_self _
    · exact (hslots j hj).1 hne
  · by_cases hne : (q, j) = (p, i)
    · cases hne
      obtain ⟨rfl, rfl⟩ := hself x lx hh
      exact u.holds_self rfl
    · exact (honly.files q j x lx hh hne).1
  · intro q j x lx hh hfile o ho
    have hin : o < (Place.clusters lx).size g := lt_of_lt_of_le ho (hz.fits hg hh hfile)
    by_cases hne : (q, j) = (p, i)
    · cases hne
      obtain ⟨rfl, rfl⟩ := hself x lx hh
      rw [h.byteAt hg hf hin]
      split
      next hoff =>
        rw [hsame (o - off) (by omega) (by omega), Nat.add_sub_cancel' hoff.1]
      next => rfl
    · exact (honly.files q j x lx hh hne).2 hfile o hin

theorem Wrote.not_untouched (h : Wrote g d s i l off buf size k d' l')
    (hlen : l.length < l'.length) : ¬ Untouched g d d' := by
  intro hu
  obtain ⟨ex, rfl⟩ := h.grown
  obtain ⟨c, t, rfl⟩ : ∃ c t, ex = c :: t := by
    cases ex with
    | nil => simp at hlen
    | cons c t => exact ⟨c, t, rfl⟩
  have hc : c ∈ l ++ c :: t := by simp
  have hnd := nodup hg h.chain
  rw [nodup_append] at hnd
  have hfree := h.fresh c hc fun hl => hnd.2.2 c hl c mem_cons_self rfl
  exact (next_used h.chain hc) ((hu.free c (h.chain.cells c hc)).mpr hfree)

/-- The chain that starts with `c`, as the model of a directory finds it. -/
theorem Disk.IsChain.chainFrom {c : Nat} (h : d.IsChain g l) (hc : l.headD 0 = c) :
    d.chainFrom g c = l := by
  cases l with
  | nil =>
    have hv : ¬ validCluster g c = true := by
      rw [← hc]
      exact not_valid_zero g
    unfold Disk.chainFrom
    cases g.clusterCount with
    | zero => rfl
    | succ k => rw [walk, if_neg hv]
  | cons a t => exact Chain.walk_eq (not_end_of_valid hg) h (congrArg some hc) (h.length_le hg)

theorem FileAt.chainFrom (hf : FileAt g d p s i e l) :
    d.chainFrom g (entryCluster (d.slot g s i)) = l := by
  obtain ⟨-, -, -, he⟩ := hf.slot hg
  refine Disk.IsChain.chainFrom hg hf.holds.chain ?_
  rw [← hf.holds.first, ← he]
  rfl

/-- Out of clusters before the first byte, every free one was taken. -/
theorem WriteResult.full (hf : FileAt g d p s i e l)
    (h : WriteResult g d s i e l off buf len k d' l') (hk : k < len) :
    l'.length = l.length + (d.freeClusters g).length := by
  obtain ⟨r, ⟨heq, -, -⟩ | ⟨-, hfull, -, -, -⟩⟩ := h.ends
  · omega
  · exact h.wrote.length_full hg hf.holds.chain hfull

theorem WriteResult.inside (h : WriteResult g d s i e l off buf len k d' l')
    (hk : 0 < k) (hin : off + k ≤ l.length * g.bytesPerCluster) : l' = l := by
  have hpos := bpc_pos hg.toUsable
  obtain ⟨ex, hex⟩ := h.wrote.grown
  have hlen : l'.length ≤ l.length := by
    obtain ⟨r, ⟨rfl, -, hlen⟩ | ⟨-, -, -, -, ⟨h0, -⟩ | ⟨-, -, hend⟩⟩⟩ := h.ends
    · have hlast : (off + k - 1) / g.bytesPerCluster < l.length :=
        (Nat.div_lt_iff_lt_mul hpos).mpr (by omega)
      rw [hlen, reach, if_neg (by omega)]
      omega
    · omega
    · exact Nat.le_of_mul_le_mul_right (by omega) hpos
  rw [hex, length_append] at hlen
  rw [hex, length_eq_zero_iff.mp (show ex.length = 0 by omega), append_nil]

/-- What a negative result leaves, in terms of what was there before. -/
theorem WriteResult.kept_iff (hz : (d.tree g).Sized g)
    (hf : FileAt g d p s i e l) (h : WriteResult g d s i e l off buf len k d' l') :
    (writeValue len k < 0 → Untouched g d d') ↔ WriteKept g d (d.slot g s i) off buf len := by
  have hneg : writeValue len k < 0 ↔ _ := writeValue_neg (h.wrote.lt hg)
  have hcount := h.count hg hf.holds.chain
  obtain ⟨-, -, -, he⟩ := hf.slot hg
  have hsize : entrySize (d.slot g s i) = e.size := by
    rw [← he]
    rfl
  unfold WriteKept
  simp only [hf.chainFrom hg, hsize, ← hcount, hf.not_deleted hg, false_or]
  constructor
  · intro hkeep
    refine ⟨?_, ?_⟩
    · rintro ⟨hlen, hfree, hoff⟩
      have hk : k = 0 := by
        rw [hcount, writeRoom]
        omega
      refine h.wrote.not_untouched hg ?_ (hkeep (hneg.mpr (.inl ⟨hk, hlen⟩)))
      rw [h.full hg hf (by omega)]
      have := length_pos_of_ne_nil hfree
      omega
    · by_cases hk : k < 2147483648
      · exact .inl hk
      · have hu := hkeep (hneg.mpr (.inr (by omega)))
        have hlen : l'.length ≤ l.length := not_lt.mp fun hlt =>
          h.wrote.not_untouched hg hlt hu
        have hin : off + k ≤ l.length * g.bytesPerCluster :=
          (h.wrote.fits.resolve_left (by omega)).trans (Nat.mul_le_mul_right _ hlen)
        obtain rfl := h.inside hg (by omega) hin
        refine .inr ⟨hin, fun j hj hjs => ?_⟩
        rw [← hu.contents p i e l' hf.holds hf.file (off + j) hjs,
          h.wrote.byteAt hg hf (show off + j < l'.length * g.bytesPerCluster by omega),
          if_pos ⟨by omega, by omega⟩, Nat.add_sub_cancel_left]
  · rintro ⟨hreach, hbytes⟩ hv
    have hw := h.wrote
    rcases hneg.mp hv with ⟨hk, hlen⟩ | hk
    · -- no byte was written, so every free cluster was taken: there was none
      have hfull := h.full hg hf (by omega)
      have hend : (l.length + (d.freeClusters g).length) * g.bytesPerCluster ≤ off := by
        rw [← hfull]
        obtain ⟨r, ⟨heq, -, -⟩ | ⟨-, -, -, hend, -⟩⟩ := h.ends
        · omega
        · omega
      have hnone : d.freeClusters g = [] := by
        by_contra hfree
        exact hreach ⟨hlen, hfree, hend⟩
      have hl : l' = l := by
        obtain ⟨ex, rfl⟩ := hw.grown
        rw [hnone, length_append, length_nil] at hfull
        rw [length_eq_zero_iff.mp (show ex.length = 0 by omega), append_nil]
      rw [hl, sizeAfter, if_neg fun hc => by rw [toLong_pos (hw.lt hg)] at hc; omega] at hw
      exact hw.untouched hg hz hf fun j hj => by omega
    · obtain ⟨hin, hbytes⟩ := hbytes.resolve_left (by omega)
      have hl := h.inside hg (by omega) hin
      rw [hl, sizeAfter, if_neg fun hc => by rw [toLong_pos (hw.lt hg)] at hc; omega] at hw
      exact hw.untouched hg hz hf hbytes

theorem ensures_fatWrite_deleted {agree : Prop} (hslot : n.Remembers p i)
    (hsp : Stored g d p s) (hi : i < s.slots g) (hdel : d.slot g s i 0 = entryDeleted)
    (htype : n.type ≠ .dir) (hro : g.readOnly = false) (off : Nat) (buf : Buf) (len : Nat) :
    Yields (onDisk g agree) (fatWrite g off buf len) n d Errno.enoent.negated n d := by
  unfold fatWrite
  rw [hro]
  refine .get_bind ?_
  rw [if_neg htype]
  refine .bind ?_
  refine .tryCatch (.bind ((ensures_refreshEntry hg hslot hsp hi).mono ?_))
  rintro r n' d' ⟨rfl, ⟨-, rfl, rfl⟩ | ⟨hno, -, -⟩⟩
  · exact .pure (.pure ⟨rfl, rfl, rfl⟩)
  · exact absurd hdel hno

end

/-- A node of a file: it remembers a slot of a directory that holds a file's
entry, or one that was deleted. -/
structure FileHandle (g : Geometry) (d : Disk) (n : FatNode) (p : Option Nat) (s : Place)
    (i : Nat) : Prop where
  type : n.type ≠ .dir
  notRoot : n.fixedRoot = false
  slot : n.Remembers p i
  dir : (d.tree g).IsDir p
  stored : Stored g d p s
  lt : i < s.slots g
  entry : d.slot g s i 0 = entryDeleted ∨ ∃ e, (d.tree g).entry p i = some e ∧ e.dir = false

theorem ensures_fatWrite_kept {agree : Prop} (hg : g.Fat16) (hs : (d.tree g).Sound g [])
    (hz : (d.tree g).Sized g) (hn : FileHandle g d n p s i) (hro : g.readOnly = false) (off : Nat)
    (buf : Buf) (len : Nat) :
    Does g agree (fatWrite g off buf len) n d fun r _ d' => ∃ v, r = .ok v ∧
      ((v < 0 → Untouched g d d') ↔ WriteKept g d (d.slot g s i) off buf len) := by
  rcases hn.entry with hdel | ⟨e, he, hfile⟩
  · refine (ensures_fatWrite_deleted hg hn.slot hn.stored hn.lt hdel hn.type hro off buf len).post
      ⟨_, rfl, iff_of_true (fun _ => .refl d) (.inl hdel)⟩
  · obtain ⟨l, hh, -⟩ := hs.holds hn.dir he
    have hf : FileAt g d p s i e l := ⟨hs, hn.stored, hh, hfile⟩
    refine (ensures_fatWrite hg hf hn.slot hn.type hn.notRoot hro off buf len).mono ?_
    rintro r n' d' ⟨k, l', rfl, hres, -⟩
    exact ⟨_, rfl, hres.kept_iff hg hz hf⟩

end Kept

/-- On a well-formed volume a negative result of `fat_write` comes with no
change exactly when the volume is read-only or `WriteKept` holds. -/
theorem fatWrite_untouched_iff {mem : Nat → Bool} {dev : Device} {fs₀ fs : FatFs} {root : FatNode}
    (hm : fatMount mem dev = .ok (fs₀, root)) (hgeo : fs.toGeometry = fs₀.toGeometry)
    (hcount : fs.dev.blockCount = dev.blockCount) (hdev : fs.Sound)
    (hwf : WellFormed fs.toGeometry fs.vol) {n : FatNode} {p : Option Nat} {s : Place} {i : Nat}
    (hn : FileHandle fs.toGeometry (fs.vol.disk fs.toGeometry) n p s i) (off : Nat) (buf : Buf)
    (len : Nat) : ∃ v n' fs', onFs (fatWrite fs.toGeometry off buf len) n fs = ((.ok v, n'), fs') ∧
      ((v < 0 → Untouched fs.toGeometry (fs.vol.disk fs.toGeometry)
          (fs'.vol.disk fs.toGeometry)) ↔
        (fs.readOnly = true ∨ WriteKept fs.toGeometry (fs.vol.disk fs.toGeometry)
          ((fs.vol.disk fs.toGeometry).slot fs.toGeometry s i) off buf len)) := by
  by_cases hro : fs.readOnly = true
  · have hrun : onFs (fatWrite fs.toGeometry off buf len) n fs =
        ((.ok Errno.erofs.negated, n), fs) := by
      unfold fatWrite
      rw [if_pos hro]
      rfl
    exact ⟨_, _, _, hrun, iff_of_true (fun _ => .refl _) (.inl hro)⟩
  · have hrw : fs.readOnly = false := Bool.eq_false_iff.mpr hro
    have hgood : fs.vol.Good fs.toGeometry := by
      refine ⟨⟨?_, hwf.holds, hrw, fun _ => hwf.copies⟩, hwf.fat16⟩
      show fs.Mounted fs.dev.blockCount
      rw [hgeo, hcount]
      exact (fatMount_mounted hm).1
    rcases hrun : onFs (fatWrite fs.toGeometry off buf len) n fs with ⟨⟨r, n'⟩, fs'⟩
    obtain ⟨-, -, v, rfl, hiff⟩ := Ensures.onFs (ensures_fatWrite_kept hgood.geometry hwf.sound
      hwf.sized hn hrw off buf len) ⟨hdev, rfl, rfl⟩ hgood hrun
    exact ⟨v, n', fs', rfl, hiff.trans (or_iff_right hro).symm⟩

/-! ### A volume that a write fills up -/

theorem oneFile_handle : FileHandle smallGeometry oneFileDisk fileInRoot none .root 0 where
  type := by decide
  notRoot := rfl
  slot := ⟨rfl, rfl, rfl⟩
  dir := .root
  stored := .root
  lt := by decide
  entry := .inr ⟨⟨false, 0, 0⟩, by decide +kernel, rfl⟩

theorem oneFile_free : 0 < (oneFileDisk.freeClusters smallGeometry).length ∧
      (oneFileDisk.freeClusters smallGeometry).length ≤ 4085 := by
  have hmem : 2 ∈ oneFileDisk.freeClusters smallGeometry :=
    mem_freeClusters.mpr ⟨by decide, small_next oneFileRoot 2⟩
  refine ⟨length_pos_of_mem hmem, (length_filter_le _ _).trans ?_⟩
  rw [length_map, length_range]
  decide

/-- A byte can be written to the file wherever the free clusters reach. -/
theorem oneFile_kept (off : Nat) :
    WriteKept smallGeometry oneFileDisk (oneFileDisk.slot smallGeometry .root 0) off
        (fun _ => 7) 1 ↔
      off < (oneFileDisk.freeClusters smallGeometry).length * 512 := by
  have hchain : oneFileDisk.chainFrom smallGeometry
      (entryCluster (oneFileDisk.slot smallGeometry .root 0)) = [] := by
    decide +kernel
  have hthere : oneFileDisk.slot smallGeometry .root 0 0 ≠ entryDeleted := by decide +kernel
  have hbpc : smallGeometry.bytesPerCluster = 512 := rfl
  have hroom : writeRoom smallGeometry oneFileDisk [] off 1 < 2147483648 :=
    lt_of_le_of_lt (min_le_left _ _) (by decide)
  have hfree := ne_nil_of_length_pos oneFile_free.1
  unfold WriteKept
  simp only [hchain, hthere, hbpc, hroom, hfree, length_nil, zero_add, Nat.one_pos,
    false_or, true_or, and_true, true_and, not_false_eq_true, ne_eq, not_le]

/-- A write of one byte past the last cluster of the volume fails, and leaves the
file with every cluster. -/
theorem fatWrite_takes_all :
    fatMount (fun _ => true) (smallDisk oneFileRoot) = .ok (oneFileFs, dirAt true 0) ∧
      oneFileFs.Sound ∧ WellFormed oneFileFs.toGeometry oneFileFs.vol ∧
      FileHandle smallGeometry oneFileDisk fileInRoot none .root 0 ∧
      ∃ v n' fs', onFs (fatWrite smallGeometry 2091520 (fun _ => 7) 1) fileInRoot oneFileFs =
          ((.ok v, n'), fs') ∧
        v < 0 ∧ ¬ Untouched smallGeometry oneFileDisk (fs'.vol.disk smallGeometry) := by
  have hm := fatMount_small oneFileRoot
  have hwf := oneFile_wellFormed
  refine ⟨hm, smallFs_sound _, hwf, oneFile_handle, ?_⟩
  have hgood : oneFileFs.vol.Good smallGeometry :=
    ⟨⟨(fatMount_mounted hm).1, hwf.holds, rfl, fun _ => hwf.copies⟩, hwf.fat16⟩
  have hcut : ¬ WriteKept smallGeometry oneFileDisk (oneFileDisk.slot smallGeometry .root 0)
      2091520 (fun _ => 7) 1 := by
    have hle := oneFile_free.2
    rw [oneFile_kept]
    omega
  rcases hrun : onFs (fatWrite smallGeometry 2091520 (fun _ => 7) 1) fileInRoot oneFileFs with
    ⟨⟨r, n'⟩, fs'⟩
  obtain ⟨-, -, v, rfl, hiff⟩ := Ensures.onFs (ensures_fatWrite_kept hgood.geometry hwf.sound
    hwf.sized oneFile_handle rfl 2091520 (fun _ => 7) 1) ⟨smallFs_sound _, rfl, rfl⟩ hgood hrun
  have hneg : ¬ (v < 0 → Untouched smallGeometry oneFileDisk (fs'.vol.disk smallGeometry)) :=
    fun h => hcut (hiff.mp h)
  exact ⟨v, n', fs', rfl, Classical.not_imp.mp hneg⟩

/-- The root directory after the file was removed. -/
def goneRoot : Buf := fun j => if j = 0 then 0xE5 else oneFileRoot j

def goneDisk : Disk := (smallFs goneRoot).vol.disk smallGeometry

theorem gone_wellFormed : WellFormed smallGeometry (smallFs goneRoot).vol := by
  refine small_wellFormed goneRoot fun i e he => ?_
  have hnone : (goneDisk.tree smallGeometry).entry none i = none := by
    cases i with
    | zero => decide +kernel
    | succ i => exact entryAt_of_end ⟨1, Nat.succ_pos i, by decide +kernel⟩
  cases he.symm.trans hnone

/-- A write to a file that was removed fails. -/
theorem fatWrite_untouched_iff_gone :
    ∃ v n' fs', onFs (fatWrite smallGeometry 0 (fun _ => 7) 1) fileInRoot (smallFs goneRoot) =
        ((.ok v, n'), fs') ∧ v = Errno.enoent.negated ∧
      Untouched smallGeometry goneDisk (fs'.vol.disk smallGeometry) := by
  have hgone : goneDisk.slot smallGeometry .root 0 0 = entryDeleted := by decide +kernel
  have hfails : (onFs (fatWrite smallGeometry 0 (fun _ => 7) 1) fileInRoot (smallFs goneRoot)).1.1 =
      .ok Errno.enoent.negated := by decide +kernel
  obtain ⟨v, n', fs', hrun, hiff⟩ := fatWrite_untouched_iff (fatMount_small goneRoot) rfl rfl
    (smallFs_sound _) gone_wellFormed
    { oneFile_handle with dir := .root, stored := .root, entry := .inl hgone } 0 (fun _ => 7) 1
  rw [show smallGeometry = (smallFs goneRoot).toGeometry from rfl, hrun] at hfails
  cases hfails
  exact ⟨_, n', fs', hrun, rfl, hiff.mpr (.inr (.inl hgone)) (by decide)⟩

end ManiOS.Fat
