import ManiOS.Fat.Create

/-!
# What the file operations do

`fat_truncate` and `fat_write` on a sound disk, through a node whose entry is
still there.  Both first read the entry again, so what the node remembers of
the file does not matter (`ensures_refreshEntry`), and all they do to a
directory is to write that entry back with another first cluster and size
(`entryWith`).  `Wrote` says what the disk is after part of a write, and what
the calls leave follows from it: the chain is longer or shorter, the entry
names it, and no other byte changed.
-/

namespace ManiOS.Fat

open ManiOS.Lib List
open Disk (put_data_clusters put_next ext put_zero)

/-! ## An entry written back -/

/-- What `sync_entry` makes of an entry. -/
def entryWith (x : Buf) (first size : Nat) : Buf := putLe32 (putLe16 x 26 first) 28 size

section EntryWith

variable (x : Buf) {first size : Nat}

theorem entryWith_outside {k : Nat} (h : k < 26 ∨ 32 ≤ k) : entryWith x first size k = x k := by
  unfold entryWith
  rw [putLe32_outside (by omega), putLe16_outside (by omega)]

theorem entryCluster_entryWith (h : first < 65536) :
    entryCluster (entryWith x first size) = first := by
  refine (le16_congr fun i hi => ?_).trans (le16_putLe16 x 26 h)
  exact putLe32_outside (by omega)

theorem entrySize_entryWith (h : size < 4294967296) :
    entrySize (entryWith x first size) = size := le32_putLe32 _ 28 h

theorem entryWith_self : entryWith x (entryCluster x) (entrySize x) = x := by
  have h16 : putLe16 x 26 (entryCluster x) = x := putLe16_le16 x 26
  rw [entryWith, h16]
  exact putLe32_le32 x 28

theorem entryWith_inside (y : Buf) {k : Nat} (h : 26 ≤ k ∧ k < 32) :
    entryWith x first size k = entryWith y first size k := by
  obtain rfl | rfl | rfl | rfl | rfl | rfl :
    k = 26 ∨ k = 27 ∨ k = 28 ∨ k = 29 ∨ k = 30 ∨ k = 31 := by omega
  all_goals rfl

theorem entryWith_entryWith (first' size' : Nat) :
    entryWith (entryWith x first size) first' size' = entryWith x first' size' := by
  funext i
  by_cases h : 26 ≤ i ∧ i < 32
  · exact entryWith_inside _ _ h
  · rw [entryWith_outside _ (by omega), entryWith_outside _ (by omega),
      entryWith_outside _ (by omega)]

theorem entryWith_clip : entryWith (clip x) first size = clip (entryWith x first size) := by
  funext i
  by_cases h : i < 32
  · rw [clip_of_lt _ h]
    by_cases h26 : 26 ≤ i
    · exact entryWith_inside _ _ ⟨h26, h⟩
    · rw [entryWith_outside _ (by omega), entryWith_outside _ (by omega), clip_of_lt _ h]
  · rw [entryWith_outside _ (by omega), clip, clip, if_neg h, if_neg h]

theorem named_entryWith (hf : first < 65536) (hs : size < 4294967296) (hn : isNamed x = true) :
    named (entryWith x first size) = some { entryOf x with first := first, size := size } := by
  have hbyte : ∀ k < 26, entryWith x first size k = x k := fun k hk =>
    entryWith_outside x (.inl hk)
  have hnamed : isNamed (entryWith x first size) = true := by
    exact hn
  rw [named, if_pos hnamed, entryOf, entryCluster_entryWith x hf, entrySize_entryWith x hs,
    isDirEntry]
  rfl

end EntryWith

/-! ## The slot a node remembers -/

/-- What the node makes of its entry. -/
def FatNode.refreshed (m : FatNode) (x : Buf) : FatNode :=
  { m with firstCluster := entryCluster x, size := entrySize x, cursorIndex := 0, cursorCluster := 0 }

section Remembered

variable {g : Geometry} {agree : Prop} {d d' : Disk} {m : FatNode} {p : Option Nat} {s : Place}
  {i : Nat}

theorem FatNode.Remembers.dirAt (h : m.Remembers p i) (hsp : Stored g d p s) :
    NodeAt g d (dirAt m.entryDirFixed m.entryDirCluster) s := by
  have hp := h.entryDir
  cases hf : m.entryDirFixed with
  | true =>
    rw [hf, if_pos rfl] at hp
    subst hp
    cases hsp with
    | root => exact rfl
  | false =>
    rw [hf, if_neg Bool.false_ne_true] at hp
    subst hp
    cases hsp with
    | @chain _ l hl hc =>
      refine ⟨rfl, hl, ?_, .inl rfl⟩
      cases l with
      | nil => cases hc
      | cons a l => exact (Option.some.inj hc).symm

theorem ensures_refreshEntry (hg : g.Fat16) (h : m.Remembers p i) (hsp : Stored g d p s)
    (hi : i < s.slots g) : Does g agree (refreshEntry g) m d fun r m' d' => d' = d ∧
      ((d.slot g s i 0 = entryDeleted ∧ r = .error (.rc .enoent) ∧ m' = m) ∨
        (d.slot g s i 0 ≠ entryDeleted ∧ r = .ok () ∧ m' = m.refreshed (d.slot g s i))) := by
  refine .get_bind ?_
  rw [h.hasEntry, h.entryOff]
  refine .bind (.onLocal ((ensures_readEntry hg (h.dirAt hsp) hi).mono ?_))
  rintro r _ d' ⟨rfl, rfl, -⟩
  refine .guard (fun hdel => ⟨rfl, .inl ⟨hdel, rfl, rfl⟩⟩) fun hdel => ?_
  exact .modify ⟨rfl, .inr ⟨hdel, rfl, rfl⟩⟩

theorem yields_syncEntry (hg : g.Fat16) (h : m.Remembers p i) (hsp : Stored g d p s)
    (hi : i < s.slots g) (hdel : d.slot g s i 0 ≠ entryDeleted) (htype : m.type ≠ .dir) :
    Yields (onDisk g agree) (syncEntry g) m d () m
      (d.put g s (32 * i) (entryWith (d.slot g s i) m.firstCluster m.size) 32) := by
  refine .get_bind ?_
  rw [h.hasEntry, h.entryOff]
  refine .onLocal (.bind ((ensures_readEntry hg (h.dirAt hsp) hi).mono ?_))
  rintro r n' d' ⟨rfl, rfl, -, hat⟩
  refine .guard (fun hdel' => absurd hdel' hdel) fun _ => ?_
  rw [if_neg htype]
  have hsize := Place.size_eq hg.toUsable s
  refine Yields.bind (yields_nodeWrite_inside hg hat (pure ()) _ (by omega) (by omega)
    fun _ => by omega).tryCatch ?_
  exact .guard (fun hne => absurd rfl hne) fun _ => .pure ⟨rfl, rfl, rfl⟩

end Remembered

/-! ## Bytes -/

/-- The same bytes, wherever the chains lead. -/
structure SameBytes (d d' : Disk) : Prop where
  root : d'.root = d.root
  data : d'.data = d.data

def Place.Apart (s : Place) (l : List Nat) : Prop := ∀ ls, s = .clusters ls → List.Disjoint ls l

section Bytes

variable {g : Geometry} {d d1 d' : Disk} {s : Place} {i : Nat} {l : List Nat}

theorem SameBytes.refl (d : Disk) : SameBytes d d := ⟨rfl, rfl⟩

theorem SameBytes.trans (h : SameBytes d d1) (h' : SameBytes d1 d') : SameBytes d d' :=
  ⟨h'.root.trans h.root, h'.data.trans h.data⟩

theorem SameBytes.put (h : SameBytes d d') (s : Place) (off : Nat) (buf : Buf) (m : Nat) :
    SameBytes (d.put g s off buf m) (d'.put g s off buf m) := by
  cases s with
  | root => exact ⟨by show memcpy _ _ _ _ _ = memcpy _ _ _ _ _; rw [h.root], h.data⟩
  | clusters l =>
    refine ⟨h.root, funext fun c => funext fun k => ?_⟩
    rw [put_data_clusters, put_data_clusters, h.data]

theorem SameBytes.putData (h : SameBytes d d') (c off : Nat) (buf : Buf) (m : Nat) :
    SameBytes (d.putData c off buf m) (d'.putData c off buf m) := by
  refine ⟨h.root, funext fun c' => ?_⟩
  rw [Disk.putData_data, Disk.putData_data, h.data]

theorem SameBytes.slot (h : SameBytes d d') (s : Place) (i : Nat) :
    d'.slot g s i = d.slot g s i := by
  funext k
  unfold Disk.slot
  split
  · cases s with
    | root => exact congrFun h.root _
    | clusters l => exact congrFun (congrFun h.data _) _
  · rfl

theorem Disk.put_put (d : Disk) (s : Place) (off : Nat) (x y : Buf) (m : Nat) :
    (d.put g s off x m).put g s off y m = d.put g s off y m := by
  cases s with
  | root =>
    refine ext rfl ?_ rfl rfl
    show memcpy (memcpy d.root off x 0 m) off y 0 m = memcpy d.root off y 0 m
    funext k
    unfold memcpy
    split <;> simp_all
  | clusters l =>
    refine ext rfl rfl (funext fun c => funext fun k => ?_) rfl
    rw [put_data_clusters, put_data_clusters, put_data_clusters]
    split <;> rfl

theorem Disk.put_comm (d : Disk) (h : s.Apart l) (off off' : Nat) (x y : Buf) (m m' : Nat) :
    (d.put g s off x m).put g (.clusters l) off' y m' =
      (d.put g (.clusters l) off' y m').put g s off x m := by
  cases s with
  | root => rfl
  | clusters ls =>
    refine ext rfl rfl (funext fun c => funext fun k => ?_) rfl
    rw [put_data_clusters, put_data_clusters, put_data_clusters,
      put_data_clusters]
    by_cases hc : c ∈ l
    · have hcs : c ∉ ls := fun h' => h ls rfl h' hc
      simp only [hcs, false_and, if_false]
    · simp only [hc, false_and, if_false]

theorem slot_put_apart (h : s.Apart l) (hi : i < s.slots g) (off : Nat) (buf : Buf) (m : Nat) :
    (d.put g (.clusters l) off buf m).slot g s i = d.slot g s i := by
  refine slot_congr hi fun o ho => ?_
  cases s with
  | root => rfl
  | clusters ls =>
    exact byteAt_clusters_congr (fun c hc => Disk.put_data_outside _ (h ls rfl hc) _ _ _) ho

theorem Disk.put_slot (hpos : 0 < g.bytesPerCluster) (d : Disk) (s : Place) (i : Nat) :
    d.put g s (32 * i) (d.slot g s i) 32 = d := by
  cases s with
  | root =>
    refine ext rfl ?_ rfl rfl
    show memcpy d.root (32 * i) (d.slot g .root i) 0 32 = d.root
    funext k
    by_cases hk : 32 * i ≤ k ∧ k < 32 * i + 32
    · rw [memcpy_inside hk.1 hk.2]
      show (if 0 + (k - 32 * i) < 32 then d.root (32 * i + (0 + (k - 32 * i))) else 0) = d.root k
      rw [if_pos (by omega), zero_add, Nat.add_sub_cancel' hk.1]
    · exact memcpy_outside (by omega)
  | clusters l =>
    refine ext rfl rfl (funext fun c => funext fun k => ?_) rfl
    rw [put_data_clusters]
    split
    next h =>
      obtain ⟨hc, hk, hlo, hhi⟩ := h
      have hdiv : (l.idxOf c * g.bytesPerCluster + k) / g.bytesPerCluster = l.idxOf c := by
        rw [mul_comm, Nat.mul_add_div hpos, Nat.div_eq_of_lt hk, add_zero]
      have hmod : (l.idxOf c * g.bytesPerCluster + k) % g.bytesPerCluster = k := by
        rw [mul_comm, Nat.mul_add_mod, Nat.mod_eq_of_lt hk]
      have hget : l.getD (l.idxOf c) 0 = c := by
        rw [getD_eq_getElem l 0 (idxOf_lt_length_of_mem hc), getElem_idxOf]
      unfold Disk.slot
      rw [if_pos (by omega), Nat.add_sub_cancel' hlo]
      show d.data (l.getD (_ / g.bytesPerCluster) 0) (_ % g.bytesPerCluster) = d.data c k
      rw [hdiv, hmod, hget]
    next => rfl

theorem Disk.put_data_append (d : Disk) {ex : List Nat} {off k : Nat} (buf : Buf)
    (hfit : k = 0 ∨ off + k ≤ l.length * g.bytesPerCluster) :
    (d.put g (.clusters (l ++ ex)) off buf k).data = (d.put g (.clusters l) off buf k).data := by
  funext c j
  rw [put_data_clusters, put_data_clusters]
  by_cases hc : c ∈ l
  · rw [idxOf_append_of_mem hc]
    simp [hc]
  · -- a cluster that was not there holds no byte of the range
    have hlen : l.length ≤ (l ++ ex).idxOf c := by
      rw [idxOf_append_of_notMem hc]
      omega
    have hpos := Nat.mul_le_mul_right g.bytesPerCluster hlen
    have hout : ¬ (off ≤ (l ++ ex).idxOf c * g.bytesPerCluster + j ∧
        (l ++ ex).idxOf c * g.bytesPerCluster + j < off + k) := by omega
    rw [if_neg (fun h => hout h.2.2), if_neg fun h => hc h.1]

end Bytes

/-! ## A file, and a write to it -/

/-- A file of a sound disk: its entry `e` in slot `i` of the directory stored at
`s`, and its chain. -/
structure FileAt (g : Geometry) (d : Disk) (p : Option Nat) (s : Place) (i : Nat) (e : Entry)
    (l : List Nat) : Prop where
  sound : (d.tree g).Sound g []
  stored : Stored g d p s
  holds : (d.tree g).Holds g p i e l
  file : e.dir = false

/-- The disk after the first `k` bytes of `buf` were written at `off` of the
file with chain `l` and entry in slot `i` of `s`.  The chain is `l'` now, and
the entry says so. -/
structure Wrote (g : Geometry) (d : Disk) (s : Place) (i : Nat) (l : List Nat) (off : Nat)
    (buf : Buf) (size k : Nat) (d' : Disk) (l' : List Nat) : Prop where
  grown : ∃ ex, l' = l ++ ex
  chain : d'.IsChain g l'
  fresh : ∀ c ∈ l', c ∉ l → d.next c = 0
  same : ∀ c, c ∉ l' → d'.next c = d.next c
  fits : k = 0 ∨ off + k ≤ l'.length * g.bytesPerCluster
  bytes : SameBytes ((d.put g s (32 * i) (entryWith (d.slot g s i) (l'.headD 0) size) 32).put g
    (.clusters l') off buf k) d'

section Writing

variable {g : Geometry} {agree : Prop} {d d1 d' : Disk} {m : FatNode} {p : Option Nat} {s : Place}
  {i off size k : Nat} {e : Entry} {l l1 l' : List Nat} {buf : Buf} {n' : FatNode}

theorem clip_slot (d : Disk) (s : Place) (i : Nat) : clip (d.slot g s i) = d.slot g s i := by
  funext j
  unfold clip Disk.slot
  split <;> rfl

section

variable (hg : g.Fat16)
include hg

theorem Stored.nodup (h : Stored g d p s) : ∀ ls, s = .clusters ls → ls.Nodup := by
  rintro ls rfl
  cases h with
  | chain hl _ => exact Disk.IsChain.nodup hg hl

variable (hf : FileAt g d p s i e l)
include hf

theorem FileAt.slot :
    i < s.slots g ∧ (∀ j ≤ i, d.slot g s j 0 ≠ entryEnd) ∧ isNamed (d.slot g s i) = true ∧
      entryOf (d.slot g s i) = e :=
  entryAt_eq_some ((hf.stored.entry hg i).symm.trans hf.holds.entry)

theorem FileAt.not_deleted : d.slot g s i 0 ≠ entryDeleted := by
  obtain ⟨-, -, hn, -⟩ := hf.slot hg
  intro hdel
  have hnone := named_deleted hdel
  rw [named, if_pos hn] at hnone
  cases hnone

theorem FileAt.dir_apart {q : Option Nat} {lq : List Nat} (hfresh : ∀ c ∈ l', c ∉ l → d.next c = 0)
    (hq : (d.tree g).IsDir q) (hsq : Stored g d q (.clusters lq)) : List.Disjoint lq l' := by
  intro c hc hc'
  by_cases hcl : c ∈ l
  · exact hf.sound.dir_apart hg hf.holds hq hsq (fun hd => absurd hd (by simp [hf.file])) hc hcl
  · exact (hf.sound.dir_cluster hg hq hsq hc).1 (hfresh c hc' hcl)

theorem FileAt.apart (hfresh : ∀ c ∈ l', c ∉ l → d.next c = 0) : s.Apart l' := by
  rintro ls rfl
  exact hf.dir_apart hg hfresh hf.holds.dir hf.stored

theorem Wrote.apart (h : Wrote g d s i l off buf size k d' l') : s.Apart l' := hf.apart hg h.fresh

theorem Wrote.stored (h : Wrote g d s i l off buf size k d' l') : Stored g d' p s :=
  hf.stored.congr fun ls hls c hc => h.same c fun hc' => h.apart hg hf ls hls hc hc'

theorem Wrote.slot (h : Wrote g d s i l off buf size k d' l') {j : Nat} (hj : j < s.slots g) :
    d'.slot g s j = if j = i then entryWith (d.slot g s i) (l'.headD 0) size else d.slot g s j := by
  rw [h.bytes.slot, slot_put_apart (h.apart hg hf) hj,
    slot_put (hf.stored.nodup hg) (bpc_pos hg.toUsable) _ hj, ← entryWith_clip, clip_slot]

theorem Wrote.refl (off : Nat) (buf : Buf) : Wrote g d s i l off buf e.size 0 d l where
  grown := ⟨[], (append_nil l).symm⟩
  chain := hf.holds.chain
  fresh c hc hn := absurd hc hn
  same c _ := rfl
  fits := .inl rfl
  bytes := by
    obtain ⟨-, -, -, he⟩ := hf.slot hg
    have hfirst : l.headD 0 = entryCluster (d.slot g s i) := by
      rw [← hf.holds.first, ← he]
      rfl
    have hsize : e.size = entrySize (d.slot g s i) := by
      rw [← he]
      rfl
    rw [put_zero, hfirst, hsize, entryWith_self, Disk.put_slot (bpc_pos hg.toUsable)]
    exact .refl d

theorem Wrote.sync (h : Wrote g d s i l off buf size k d' l') (size' : Nat) :
    Wrote g d s i l off buf size' k
      (d'.put g s (32 * i) (entryWith (d'.slot g s i) (l'.headD 0) size') 32) l' := { h with
  chain := h.chain.congr fun c _ => by rw [put_next]
  same c hc := by rw [put_next, h.same c hc]
  bytes := by
    rw [h.slot hg hf (hf.slot hg).1, if_pos rfl, entryWith_entryWith]
    have hb := h.bytes.put (g := g) s (32 * i) (entryWith (d.slot g s i) (l'.headD 0) size') 32
    rw [← Disk.put_comm _ (h.apart hg hf), Disk.put_put] at hb
    exact hb }

omit hg hf in
theorem Wrote.extend (h : Wrote g d s i l off buf size k d1 l1) {dir : Prop} [Decidable dir]
    (hdir : ¬ dir) (hne : l1 ≠ []) (hext : Extends g dir d1 d' l1 l') :
    Wrote g d s i l off buf size k d' l' := by
  have hhead := hext.headD hne
  obtain ⟨ex1, rfl⟩ := h.grown
  obtain ⟨ex, rfl⟩ := hext.grown
  refine ⟨⟨ex1 ++ ex, append_assoc ..⟩, hext.chain, ?_, ?_, ?_, ?_⟩
  · intro c hc hcl
    by_cases hc1 : c ∈ l ++ ex1
    · exact h.fresh c hc1 hcl
    · rw [← h.same c hc1]
      exact hext.fresh c hc hc1
  · intro c hc
    rw [hext.same c hc]
    exact h.same c fun hc1 => hc (mem_append_left ex hc1)
  · refine h.fits.imp_right fun hfit => hfit.trans ?_
    rw [@List.length_append _ (l ++ ex1) ex, add_mul]
    omega
  · rw [hhead]
    refine ⟨hext.root.trans h.bytes.root, ?_⟩
    rw [Disk.put_data_append _ _ h.fits, ← h.bytes.data]
    funext c j
    rw [hext.data, if_neg fun h => hdir h.1]

theorem Wrote.first {c : Nat} (h : Wrote g d s i l off buf size k d1 []) {dir : Prop}
    [Decidable dir] (hdir : ¬ dir)
    (hext : Extends g dir d1 d' [] [c]) : Stored g d' p s ∧ d'.slot g s i 0 ≠ entryDeleted ∧
      Wrote g d s i l off buf size k
        (d'.put g s (32 * i) (entryWith (d'.slot g s i) c size) 32) [c] := by
  have hbytes : SameBytes d1 d' :=
    ⟨hext.root, funext fun a => funext fun j => by rw [hext.data, if_neg fun h => hdir h.1]⟩
  have hfree : d.next c = 0 := by
    rw [← h.same c not_mem_nil]
    exact hext.fresh c mem_cons_self not_mem_nil
  obtain ⟨ex, hex⟩ := h.grown
  obtain ⟨rfl, -⟩ := append_eq_nil_iff.mp hex.symm
  have hfresh : ∀ a ∈ [c], a ∉ [] → d.next a = 0 := by
    intro a ha _
    rw [mem_singleton.mp ha]
    exact hfree
  have hapart := hf.apart hg hfresh
  have hk : k = 0 := by
    rcases h.fits with hk | hk
    · exact hk
    · rw [length_nil] at hk
      omega
  have hslot := (hbytes.slot s i).trans (h.slot hg hf (hf.slot hg).1)
  rw [if_pos rfl] at hslot
  refine ⟨(h.stored hg hf).congr fun ls hls a ha => hext.same a fun h' => hapart ls hls ha h', ?_,
    ⟨[c], rfl⟩, hext.chain.congr fun a _ => by rw [put_next], hfresh, ?_, .inl hk, ?_⟩
  · rw [hslot]
    exact hf.not_deleted hg
  · intro a ha
    rw [put_next, hext.same a ha]
    exact h.same a not_mem_nil
  · have hb := (h.bytes.trans hbytes).put (g := g) s (32 * i) (entryWith (d.slot g s i) c size) 32
    rw [hk, put_zero, Disk.put_put] at hb
    rw [hslot, entryWith_entryWith, hk, put_zero]
    exact hb

/-- A write under way: the node knows the chain. -/
structure Writing (g : Geometry) (d : Disk) (m : FatNode) (s : Place) (i : Nat) (l : List Nat)
    (off : Nat) (buf : Buf) (k : Nat) (n' : FatNode) (d' : Disk) (l' : List Nat) : Prop where
  node : n' = { m with firstCluster := l'.headD 0 }
  wrote : Wrote g d s i l off buf m.size k d' l'

/-- A node of a file, as `refresh_entry` leaves it. -/
structure FileNode (m : FatNode) (p : Option Nat) (i : Nat) (e : Entry) : Prop where
  slot : m.Remembers p i
  type : m.type ≠ .dir
  notRoot : m.fixedRoot = false
  first : m.firstCluster = e.first
  size : m.size = e.size
  cursorIndex : m.cursorIndex = 0
  cursorCluster : m.cursorCluster = 0

omit hg hf in
theorem FileNode.onChain (hm : FileNode m p i e)
    (h : Writing g d m s i l off buf k n' d' l') : OnChain g d' n' l' := by
  rw [h.node]
  exact ⟨hm.notRoot, h.wrote.chain, rfl, .inl hm.cursorCluster⟩

variable (hm : FileNode m p i e)
include hm

theorem ensures_firstCluster (h : Writing g d m s i l off buf k n' d1 []) :
    Does g agree (growChain g (syncEntry g) 0) n' d1 fun r n'' d' =>
      (∃ c, r = .ok c ∧ Writing g d m s i l off buf k n'' d' [c]) ∨
        (r = .error (.rc .enospc) ∧ n'' = n' ∧ d' = d1 ∧ d1.Full g) := by
  obtain ⟨rfl, hw⟩ := h
  refine ensures_newCluster hg (fun hfull => .inr ⟨rfl, rfl, rfl, hfull⟩) ?_
  intro c d2 hc hfree hext
  obtain ⟨hst, hdel, hw'⟩ := hw.first hg hf hm.type hext
  refine .modify_bind ?_
  have hnode : ({ m with firstCluster := c, cursorIndex := 0, cursorCluster := 0 } : FatNode) =
      { m with firstCluster := c } := by
    rw [hm.cursorIndex, hm.cursorCluster]
  rw [hnode]
  refine Yields.bind (yields_syncEntry hg { hm.slot with }
    hst (hf.slot hg).1 hdel hm.type) ?_
  exact .pure (.inl ⟨c, rfl, rfl, hw'⟩)

theorem ensures_writingCluster {index : Nat} (h : Writing g d m s i l off buf k n' d1 l1) :
    Does g agree (clusterForWriteWith g (syncEntry g) index) n' d1 fun r n'' d' =>
      ∃ l', Writing g d m s i l off buf k n'' d' l' ∧ l1.length ≤ l'.length ∧
        ((r = .ok (l'.getD index 0) ∧ l'.length = max l1.length (index + 1)) ∨
          (r = .error (.rc .enospc) ∧ d'.Full g ∧ l'.length ≤ index)) := by
  have hon := hm.onChain h
  -- once there is a cluster, the chain is followed and extended
  have hrest : ∀ {d2 : Disk} {n2 : FatNode} {l2 : List Nat} {r : Except Stop Nat} {d' : Disk},
      Writing g d m s i l off buf k n2 d2 l2 → l2 ≠ [] → l1.length ≤ l2.length →
      max l2.length (index + 1) = max l1.length (index + 1) →
      (∃ l', Reaches g (n2.type = .dir) index d2 l2 r d' l') →
      ∃ l', Writing g d m s i l off buf k n2 d' l' ∧ l1.length ≤ l'.length ∧
        ((r = .ok (l'.getD index 0) ∧ l'.length = max l1.length (index + 1)) ∨
          (r = .error (.rc .enospc) ∧ d'.Full g ∧ l'.length ≤ index)) := by
    rintro d2 n2 l2 r d' ⟨rfl, hw⟩ hne hle hmax ⟨l', hext, hend⟩
    exact ⟨l', ⟨by rw [hext.headD hne], hw.extend hm.type hne hext⟩, hle.trans hext.length_le,
      hend.imp_left fun hok => ⟨hok.1, hok.2.trans hmax⟩⟩
  cases hl : l1 with
  | cons a t =>
    have hne : l1 ≠ [] := by simp [hl]
    refine (ensures_clusterForWrite hg hon hne (.inr (.inr hg.fat12)) (syncEntry g)).mono ?_
    rintro r n'' d' ⟨rfl, hreach⟩
    rw [← hl]
    exact hrest h hne le_rfl rfl hreach
  | nil =>
    subst hl
    have hzero : n'.firstCluster = 0 := hon.first
    refine .get_bind ?_
    rw [hzero]
    refine .bind ((ensures_firstCluster hg hf hm h).mono ?_)
    rintro r n2 d2 (⟨c, rfl, hw2⟩ | ⟨rfl, rfl, rfl, hfull⟩)
    · have hchain := hw2.wrote.chain
      dsimp only
      by_cases hi : 0 = index
      · rw [← hi]
        exact .pure ⟨[c], hw2, by simp, .inl ⟨rfl, by simp⟩⟩
      · rw [if_neg hi]
        refine (yields_fatEntry (hchain.cells c (by simp))).bind ?_
        have hend : isEndOfChain g (d2.next c) = true := hchain.links
        rw [if_pos hend]
        refine (ensures_clusterForWriteFrom hg (syncEntry g) g.clusterCount 1 [c] d2 hchain
          (by simp) (by simp) (show 1 ≤ index by omega) (.inr (.inr hg.fat12)) (by omega)).mono ?_
        rintro r n'' d' ⟨rfl, hreach⟩
        exact hrest hw2 (by simp) (by simp) (by simp) hreach
    · exact ⟨[], h, le_rfl, .inr ⟨rfl, hfull, Nat.zero_le _⟩⟩

theorem ensures_nodeWrite_file (off : Nat) (buf : Buf) (len : Nat) :
    Does g agree (nodeWrite g off buf len) m d fun r n' d' =>
      ∃ k l', Writing g d m s i l off buf k n' d' l' ∧ WriteEnds g l.length off len r d' k l' := by
  refine .get_bind ?_
  rw [hm.notRoot]
  have hstart : Writing g d m s i l off buf 0 m d l := by
    refine ⟨?_, hm.size ▸ .refl hg hf off buf⟩
    rw [← hf.holds.first, ← hm.first]
  refine ensures_nodeWriteFrom (I := Writing g d m s i l off buf) hg
    (fun k n d' l' h => hm.onChain h) ?_ ?_ len 0 m d l hstart (Nat.zero_le _) (by omega)
    (by simp [reach])
  · intro k n' d1 l1 h _
    exact ensures_writingCluster hg hf hm h
  · rintro k n' d1 l1 m' ⟨hnode, hw⟩ hq hsec hle
    refine ⟨hnode, hw.grown, hw.chain, hw.fresh, hw.same, .inr ?_, ?_⟩
    · rw [← add_assoc]
      exact chunk_fits hg hq hsec
    · rw [← Disk.put_putData hg (Disk.IsChain.nodup hg hw.chain) hq hsec]
      exact hw.bytes.putData _ _ _ _

end

/-! ## `fat_write` -/

/-- The size of a file of `size` bytes after `k` bytes were written at `off`. -/
def sizeAfter (size off k : Nat) : Nat := if 0 < toLong k ∧ size < off + k then off + k else size

/-- What `fat_write` returns after `k` of `len` bytes. -/
def writeValue (len k : Nat) : Int :=
  if k = 0 ∧ 0 < len then Errno.enospc.negated else toLong k

/-- What a `fat_write` that gets as far as writing leaves. -/
structure WriteResult (g : Geometry) (d : Disk) (s : Place) (i : Nat) (e : Entry) (l : List Nat)
    (off : Nat) (buf : Buf) (len k : Nat) (d' : Disk) (l' : List Nat) : Prop where
  wrote : Wrote g d s i l off buf (sizeAfter e.size off k) k d' l'
  ends : ∃ r, WriteEnds g l.length off len r d' k l'

theorem Wrote.lt (hg : g.Fat16) (h : Wrote g d s i l off buf size k d' l') : k < 4294967296 := by
  have hsize : l'.length * g.bytesPerCluster ≤ 65524 * 65536 := size_clusters_le hg h.chain
  have hfit := h.fits
  omega

theorem toLong_pos (h : k < 4294967296) : 0 < toLong k ↔ 0 < k ∧ k < 2147483648 := by
  unfold toLong
  split <;> omega

theorem writeValue_neg {len : Nat} (hk : k < 4294967296) :
    writeValue len k < 0 ↔ (k = 0 ∧ 0 < len) ∨ 2147483648 ≤ k := by
  unfold writeValue toLong
  split
  next h => exact ⟨fun _ => .inl h, fun _ => Errno.negated_neg _⟩
  next h => split <;> omega

/-- The count of a write that did not fail is small, and 0 only if nothing was asked. -/
theorem writeValue_nonneg {len : Nat} (hk : k < 4294967296) (h : 0 ≤ writeValue len k) :
    ¬ (k = 0 ∧ 0 < len) ∧ k < 2147483648 := by
  have hno := mt (writeValue_neg hk).mpr (Int.not_lt.mpr h)
  omega

theorem Wrote.size_lt {old : Nat} (hg : g.Fat16) (h : Wrote g d s i l off buf size k d' l')
    (hold : old < 4294967296) : sizeAfter old off k < 4294967296 := by
  have hmax : l'.length * g.bytesPerCluster ≤ 65524 * 65536 := size_clusters_le hg h.chain
  have hfit := h.fits
  have hpos := toLong_pos (h.lt hg)
  unfold sizeAfter
  split <;> omega

variable (hg : g.Fat16) (hf : FileAt g d p s i e l)
include hg hf

/-- The end of `fat_write`: the size follows what was written. -/
theorem ensures_growSize {done : Int} (hm : FileNode m p i e)
    (h : Writing g d m s i l off buf k n' d1 l') (hdone : done = toLong k ∨ (k = 0 ∧ done < 0)) :
    Does g agree (growSize g off done) n' d1 fun r n'' d' =>
      r = .ok none ∧ d'.next = d1.next ∧
        n'' = { m with firstCluster := l'.headD 0, size := sizeAfter e.size off k } ∧
        Wrote g d s i l off buf (sizeAfter e.size off k) k d' l' := by
  obtain ⟨rfl, hw⟩ := h
  have hk := hw.lt hg
  have hsize : l'.length * g.bytesPerCluster ≤ 65524 * 65536 := size_clusters_le hg hw.chain
  have hpos : 0 < done ↔ 0 < toLong k := by
    rcases hdone with rfl | ⟨rfl, hneg⟩
    · rfl
    · rw [toLong_pos hk]
      omega
  have hu : 0 < done → u32 (off + done.toNat) = off + k := by
    intro hd
    obtain ⟨hk0, hk31⟩ := (toLong_pos hk).mp (hpos.mp hd)
    have hcount : done.toNat = k := by
      rw [hdone.resolve_right fun h => by omega, toLong_of_lt hk31]
      rfl
    have hfit := hw.fits
    rw [hcount]
    exact u32_of_lt (by omega)
  refine .get_bind ?_
  by_cases hgrow : 0 < done ∧ e.size < off + k
  · have hsz : sizeAfter e.size off k = off + k := if_pos ⟨hpos.mp hgrow.1, hgrow.2⟩
    rw [if_pos ⟨hgrow.1, by rw [hu hgrow.1]; exact hm.size.symm ▸ hgrow.2⟩]
    refine .modify_bind ?_
    rw [hu hgrow.1, hsz]
    have hslot := hw.slot hg hf (hf.slot hg).1
    rw [if_pos rfl] at hslot
    have hdel : d1.slot g s i 0 ≠ entryDeleted := by
      rw [hslot]
      exact hf.not_deleted hg
    refine .tryCatch (Yields.bind (yields_syncEntry hg
      { hm.slot with } (hw.stored hg hf) (hf.slot hg).1 hdel
      hm.type) (.pure ?_))
    exact ⟨rfl, put_next .., rfl, hw.sync hg hf (off + k)⟩
  · have hsz : sizeAfter e.size off k = e.size := if_neg fun hc => hgrow ⟨hpos.mpr hc.1, hc.2⟩
    rw [if_neg fun hc => hgrow ⟨hc.1, by
      have hlt := hc.2
      rw [hu hc.1] at hlt
      exact hm.size ▸ hlt⟩]
    rw [hsz, ← hm.size]
    exact .pure ⟨rfl, rfl, rfl, hw⟩

/-- What is left of `fat_write` once `node_write` is done. -/
theorem ensures_rest (hm : FileNode m p i e) {len : Nat} {r : Except Stop Nat}
    (hw : Writing g d m s i l off buf k n' d' l') (hends : WriteEnds g l.length off len r d' k l')
    {v : Int} (hv : writeValue len k = v) (hval : v = toLong k ∨ (k = 0 ∧ v < 0)) :
    Does g agree (do
      let rc ← growSize g off v
      if 0 < v then pure v
      else
        match rc with
        | some e => pure e.negated
        | none => pure v) n' d' fun r m' d' =>
      ∃ k l', r = .ok (writeValue len k) ∧ WriteResult g d s i e l off buf len k d' l' ∧
        m' = { m with firstCluster := l'.headD 0, size := sizeAfter e.size off k } := by
  subst hv
  refine .bind ((ensures_growSize hg hf hm hw hval).mono ?_)
  rintro r n'' d'' ⟨rfl, hnext, rfl, hw'⟩
  have hres : WriteResult g d s i e l off buf len k d'' l' :=
    ⟨hw', r, by unfold WriteEnds Disk.Full at hends ⊢; rwa [hnext]⟩
  dsimp only
  split
  · exact .pure ⟨k, l', rfl, hres, rfl⟩
  · exact .pure ⟨k, l', rfl, hres, rfl⟩

/-- The node once its entry was read again. -/
theorem FileAt.refreshed (hslot : m.Remembers p i) (htype : m.type ≠ .dir)
    (hroot : m.fixedRoot = false) : FileNode (m.refreshed (d.slot g s i)) p i e := by
  obtain ⟨-, -, -, rfl⟩ := hf.slot hg
  exact ⟨{ hslot with }, htype, hroot, rfl, rfl, rfl, rfl⟩

theorem ensures_fatWrite (hslot : m.Remembers p i) (htype : m.type ≠ .dir)
    (hroot : m.fixedRoot = false) (hro : g.readOnly = false) (off : Nat) (buf : Buf) (len : Nat) :
    Does g agree (fatWrite g off buf len) m d fun r m' d' =>
      ∃ k l', r = .ok (writeValue len k) ∧ WriteResult g d s i e l off buf len k d' l' ∧
        m' = { m with firstCluster := l'.headD 0, size := sizeAfter e.size off k,
                      cursorIndex := 0, cursorCluster := 0 } := by
  unfold fatWrite
  rw [hro]
  refine .get_bind ?_
  rw [if_neg htype]
  refine .bind ?_
  refine .tryCatch (.bind ((ensures_refreshEntry hg hslot hf.stored (hf.slot hg).1).mono ?_))
  rintro r m1 d1 ⟨rfl, ⟨hdel, -, -⟩ | ⟨-, rfl, rfl⟩⟩
  · exact absurd hdel (hf.not_deleted hg)
  refine .pure ?_
  have hm := hf.refreshed hg hslot htype hroot
  refine .bind ?_
  refine .tryCatch (.bind ((ensures_nodeWrite_file hg hf hm off buf len).mono ?_))
  rintro r n' d' ⟨k, l', hw, hends⟩
  have hends' := hends
  rcases hends' with ⟨rfl, rfl, -⟩ | ⟨hlt, -, -, -, ⟨rfl, rfl⟩ | ⟨hk, rfl, -⟩⟩
  · exact .pure (ensures_rest hg hf hm hw hends (if_neg (by omega)) (.inl rfl))
  · exact .pure (ensures_rest hg hf hm hw hends (if_pos ⟨rfl, hlt⟩)
      (.inr ⟨rfl, Errno.negated_neg _⟩))
  · exact .pure (ensures_rest hg hf hm hw hends (if_neg (by omega)) (.inl rfl))

end Writing

/-! ## `fat_truncate` -/

/-- The disk after the chain of the file with entry in slot `i` of `s` was cut
down to `l'`. -/
structure Cut (g : Geometry) (d : Disk) (s : Place) (i : Nat) (l : List Nat) (size : Nat)
    (d' : Disk) (l' : List Nat) : Prop where
  kept : l' <+: l
  chain : d'.IsChain g l'
  freed : ∀ c ∈ l, c ∉ l' → d'.next c = 0
  same : ∀ c, c ∉ l → d'.next c = d.next c
  bytes : SameBytes (d.put g s (32 * i) (entryWith (d.slot g s i) (l'.headD 0) size) 32) d'

section Cutting

variable {g : Geometry} {agree : Prop} {d d1 d' : Disk} {m : FatNode} {p : Option Nat} {s : Place}
  {i size : Nat} {e : Entry} {l l' : List Nat}

theorem not_valid_zero (g : Geometry) : ¬ validCluster g 0 = true := fun h =>
  validCluster_ne_zero h rfl

variable (hg : g.Fat16)
include hg

/-- The walk of `fat_truncate`: to the cluster `left` links on, or to the last. -/
theorem ensures_lastKept {σ : Type} {n : σ} (left : Nat) :
    ∀ (l : List Nat) (c : Nat), d.IsChain g l → l.head? = some c →
      Does g agree (lastKept g left c) n d fun r n' d' => n' = n ∧ d' = d ∧
        ∃ a b t, r = .ok b ∧ l = a ++ b :: t ∧ a.length = min left (l.length - 1) := by
  induction left with
  | zero =>
    rintro l c hl hc
    cases l with
    | nil => cases hc
    | cons b t =>
      obtain rfl : b = c := Option.some.inj hc
      exact .pure ⟨rfl, rfl, [], b, t, rfl, rfl, by simp⟩
  | succ left ih =>
    rintro l c hl hc
    cases l with
    | nil => cases hc
    | cons b t =>
      obtain rfl : b = c := Option.some.inj hc
      have hv := hl.cells b mem_cons_self
      rw [lastKept, if_pos hv]
      refine (yields_fatEntry hv).bind ?_
      cases t with
      | nil =>
        have hend : isEndOfChain g (d.next b) = true := hl.links
        rw [if_pos hend]
        exact .pure ⟨rfl, rfl, [], b, [], rfl, rfl, by simp⟩
      | cons b' t =>
        have hnext : d.next b = b' := hl.links.1
        have hv' := hl.cells b' (by simp)
        rw [hnext, if_neg (not_end_of_valid hg b' hv')]
        refine (ih (b' :: t) b' hl.tail rfl).mono ?_
        rintro r n' d' ⟨rfl, rfl, a, x, t', rfl, heq, hlen⟩
        refine ⟨rfl, rfl, b :: a, x, t', rfl, by rw [heq]; rfl, ?_⟩
        simp only [length_cons] at hlen ⊢
        omega

theorem cut_table {a t : List Nat} {b : Nat} (hl : d.IsChain g (a ++ b :: t))
    (hint : Nat) : (((d.freed t).setHint hint).setNext b (endMarker g)).IsChain g (a ++ [b]) ∧
      (∀ c ∈ t, (((d.freed t).setHint hint).setNext b (endMarker g)).next c = 0) ∧
      ∀ c, c ∉ a ++ b :: t →
        (((d.freed t).setHint hint).setNext b (endMarker g)).next c = d.next c := by
  have hnd := Disk.IsChain.nodup hg hl
  rw [nodup_append, nodup_cons] at hnd
  obtain ⟨-, ⟨hbt, -⟩, hab⟩ := hnd
  refine ⟨hl.take (fun c hc => ?_) ?_, fun c hc => ?_, fun c hc => ?_⟩
  · show (if c = b then _ else if c ∈ t then 0 else d.next c) = d.next c
    rw [if_neg (hab c hc b mem_cons_self), if_neg fun h => hab c hc c (mem_cons_of_mem b h) rfl]
  · show isEndOfChain g (if b = b then endMarker g else _) = true
    rw [if_pos rfl]
    exact endMarker_end g
  · show (if c = b then _ else if c ∈ t then 0 else d.next c) = 0
    rw [if_neg (by rintro rfl; exact hbt hc), if_pos hc]
  · rw [mem_append, mem_cons, not_or, not_or] at hc
    show (if c = b then _ else if c ∈ t then 0 else d.next c) = d.next c
    rw [if_neg hc.2.1, if_neg hc.2.2]

variable (hf : FileAt g d p s i e l)
include hf

theorem FileAt.sync (d1 : Disk) (m : FatNode)
    (hsame : ∀ c, c ∉ l → d1.next c = d.next c) (hbytes : SameBytes d d1) (hm : m.Remembers p i)
    (htype : m.type ≠ .dir) :
    ∃ d', Yields (onDisk g agree) (syncEntry g) m d1 () m d' ∧ d'.next = d1.next ∧
      SameBytes (d.put g s (32 * i) (entryWith (d.slot g s i) m.firstCluster m.size) 32) d' := by
  have hapart : s.Apart l := hf.apart hg fun c hc hn => absurd hc hn
  have hst : Stored g d1 p s :=
    hf.stored.congr fun ls hls c hc => hsame c fun hc' => hapart ls hls hc hc'
  have hslot : d1.slot g s i = d.slot g s i := hbytes.slot s i
  refine ⟨_, yields_syncEntry hg hm hst (hf.slot hg).1 (by rw [hslot]; exact hf.not_deleted hg)
    htype, put_next .., ?_⟩
  rw [hslot]
  exact hbytes.put s (32 * i) _ 32

/-- What `fat_truncate` does for size 0. -/
theorem ensures_dropChain (hm : FileNode m p i e) :
    Does g agree (dropChain g) m d fun r m' d' => r = .ok () ∧
      Cut g d s i l 0 d' [] ∧ m' = { m with firstCluster := 0, size := 0 } := by
  refine .get_bind (.bind ?_)
  refine .tryCatch (.bind ((ensures_freeChain hg hf.holds.chain
    (hf.holds.first.symm.trans hm.first.symm)).mono ?_))
  rintro r m1 d1 ⟨rfl, rfl, hint, rfl⟩
  refine .pure (.modify_bind ?_)
  have hnode : ({ m1 with firstCluster := 0, cursorIndex := 0, cursorCluster := 0, size := 0 } :
      FatNode) = { m1 with firstCluster := 0, size := 0 } := by
    rw [hm.cursorIndex, hm.cursorCluster]
  have hsame : ∀ c, c ∉ l → ((d.freed l).setHint hint).next c = d.next c := fun c hc => if_neg hc
  obtain ⟨d', hy, hnext, hb⟩ := hf.sync hg _ { m1 with firstCluster := 0, size := 0 } hsame
    ⟨rfl, rfl⟩ { hm.slot with } hm.type
  rw [hnode]
  refine hy.post ⟨rfl, ⟨ nil_prefix, .nil, fun c hc _ => ?_, fun c hc => ?_, hb⟩, rfl⟩
  · rw [hnext]
    exact if_pos hc
  · rw [hnext]
    exact hsame c hc

/-- How many clusters `fat_truncate` keeps of `length` for a size that is not 0. -/
def clustersKept (g : Geometry) (length size : Nat) : Nat :=
  min (u32 (size + g.bytesPerCluster - 1) / g.bytesPerCluster - 1) (length - 1) + 1

/-- What `fat_truncate` does for a smaller size that is not 0. -/
theorem ensures_cutChain (hm : FileNode m p i e) (size : Nat) :
    Does g agree (cutChain g size) m d fun r m' d' =>
      (r = .ok () ∧ ∃ l', l'.length = clustersKept g l.length size ∧ l ≠ [] ∧
          Cut g d s i l size d' l' ∧ m' = { m with firstCluster := l'.headD 0, size := size }) ∨
        (r = .error (.rc .eio) ∧ l = [] ∧ d' = d ∧ m' = m) := by
  have hfirst : m.firstCluster = l.headD 0 := hm.first.trans hf.holds.first
  refine .get_bind ?_
  cases hl : l with
  | nil =>
    rw [hfirst, hl]
    have hzero : ∀ left, Yields (onDisk g agree) (lastKept g left 0) m d 0 m d := by
      intro left
      cases left with
      | zero | succ => exact .pure
    refine (hzero _).bind (.guard (fun _ => .inr ⟨rfl, rfl, rfl, rfl⟩) fun h => ?_)
    exact absurd (by simpa using h) (not_valid_zero g)
  | cons b0 t0 =>
    rw [← hl]
    have hhead : l.head? = some m.firstCluster := by
      rw [hfirst, hl]
      rfl
    refine .bind ((ensures_lastKept hg _ l m.firstCluster hf.holds.chain hhead).mono ?_)
    rintro r m1 d1 ⟨rfl, rfl, a, b, t, rfl, heq, hlen⟩
    have hchain : d1.IsChain g (a ++ b :: t) := heq ▸ hf.holds.chain
    have hv := hchain.cells b (by simp)
    refine .guard (fun h => absurd hv (by simpa using h)) fun _ => ?_
    refine (yields_fatEntry hv).bind ?_
    have htail : ∀ hint, Does g agree (do
        fatSetEntry g b (endMarker g)
        .modify fun n => { n with size := size }
        syncEntry g) m1 ((d1.freed t).setHint hint) fun r m' d' =>
        (r = .ok () ∧ ∃ l', l'.length = clustersKept g l.length size ∧ l ≠ [] ∧
            Cut g d1 s i l size d' l' ∧
            m' = { m1 with firstCluster := l'.headD 0, size := size }) ∨
          (r = .error (.rc .eio) ∧ l = [] ∧ d' = d1 ∧ m' = m1) := by
      intro hint
      obtain ⟨hcut, hfree, hsame⟩ := cut_table hg hchain hint
      refine (yields_fatSetEntry hv (endMarker_fits g)).bind (.modify_bind ?_)
      rw [Geometry.stored_16 hg.fat12]
      obtain ⟨d', hy, hnext, hb⟩ := hf.sync hg
        (((d1.freed t).setHint hint).setNext b (endMarker g)) { m1 with size := size }
        (fun c hc => hsame c (heq ▸ hc)) ⟨rfl, rfl⟩
        { hm.slot with } hm.type
      have hhd : m1.firstCluster = (a ++ [b]).headD 0 := by
        rw [hfirst, heq]
        cases a with
        | nil | cons => rfl
      refine hy.post (.inl ⟨rfl, a ++ [b], ?_, by simp [hl], ⟨?_, ?_, ?_, ?_, ?_⟩, ?_⟩)
      · rw [length_append, hlen]
        rfl
      · exact ⟨t, by rw [heq, append_assoc]; rfl⟩
      · exact hcut.congr fun c _ => by rw [hnext]
      · intro c hc hn
        rw [hnext]
        refine hfree c ?_
        rw [heq, append_cons, mem_append] at hc
        exact hc.resolve_left hn
      · intro c hc
        rw [hnext]
        exact hsame c (heq ▸ hc)
      · rw [← hhd]
        exact hb
      · rw [← hhd]
    -- the rest of the chain is handed back, if there is one
    cases t with
    | nil =>
      have hend : isEndOfChain g (d1.next b) = true := hchain.links.stop_last
      rw [hend]
      exact htail d1.hint
    | cons b' t =>
      have hnext : d1.next b = b' := hchain.links.next_eq
      have hv' := hchain.cells b' (by simp)
      have hrest : d1.IsChain g (b' :: t) := by
        rw [append_cons] at hchain
        exact hchain.drop
      rw [hnext, Bool.eq_false_iff.mpr (not_end_of_valid hg b' hv')]
      refine .bind ((ensures_freeChain hg hrest rfl).mono ?_)
      rintro r m2 d2 ⟨rfl, rfl, hint, rfl⟩
      exact htail hint

/-- How far `fat_truncate` cuts the chain of a file. -/
inductive Shortened (g : Geometry) (e : Entry) (l : List Nat) (size : Nat) (l' : List Nat) : Prop
  | all (hsize : size = 0) (hl : l' = [])
  | none (hsize : size = e.size) (hl : l' = l)
  | some (hsize : 0 < size ∧ size < e.size) (hne : l ≠ [])
      (hl : l'.length = clustersKept g l.length size)

theorem FileAt.size_lt : e.size < 4294967296 := by
  obtain ⟨-, -, -, rfl⟩ := hf.slot hg
  exact le32_lt _

omit hg hf in
theorem Shortened.le (h : Shortened g e l size l') : size ≤ e.size := by
  cases h <;> omega

theorem Cut.refl : Cut g d s i l e.size d l where
  kept := prefix_rfl
  chain := hf.holds.chain
  freed c hc hn := absurd hc hn
  same c _ := rfl
  bytes := by
    have hb := (Wrote.refl hg hf 0 (fun _ => 0)).bytes
    rw [put_zero] at hb
    exact hb

theorem ensures_fatTruncate (hslot : m.Remembers p i) (htype : m.type ≠ .dir)
    (hroot : m.fixedRoot = false) (hro : g.readOnly = false) (size : Nat) :
    Does g agree (fatTruncate g size) m d fun r m' d' =>
      (r = .ok () ∧ ∃ l', Cut g d s i l size d' l' ∧ Shortened g e l size l' ∧
          m' = { m with firstCluster := l'.headD 0, size := size, cursorIndex := 0,
                        cursorCluster := 0 }) ∨
        (∃ err, r = .error (.rc err) ∧ d' = d ∧ m' = m.refreshed (d.slot g s i)) := by
  unfold fatTruncate
  refine .guard (fun h => absurd h (by simp [hro])) fun _ => ?_
  refine .bind ((ensures_refreshEntry hg hslot hf.stored (hf.slot hg).1).mono ?_)
  rintro r m1 d1 ⟨rfl, ⟨hdel, -, -⟩ | ⟨-, rfl, rfl⟩⟩
  · exact absurd hdel (hf.not_deleted hg)
  have hm := hf.refreshed hg hslot htype hroot
  refine .get_bind ?_
  rw [hm.size]
  by_cases h0 : size = 0
  · rw [if_pos h0]
    refine (ensures_dropChain hg hf hm).mono ?_
    rintro r m' d' ⟨rfl, hcut, rfl⟩
    subst h0
    exact .inl ⟨rfl, [], hcut, .all rfl rfl, rfl⟩
  · rw [if_neg h0]
    by_cases hgt : size > e.size
    · rw [if_pos hgt]
      exact .throw (.inr ⟨_, rfl, rfl, rfl⟩)
    · rw [if_neg hgt]
      by_cases hlt : size < e.size
      · rw [if_pos hlt]
        refine (ensures_cutChain hg hf hm size).mono ?_
        rintro r m' d' (⟨rfl, l', hlen, hne, hcut, rfl⟩ | ⟨rfl, -, rfl, rfl⟩)
        · exact .inl ⟨rfl, l', hcut, .some ⟨by omega, hlt⟩ hne hlen, rfl⟩
        · exact .inr ⟨_, rfl, rfl, rfl⟩
      · rw [if_neg hlt]
        obtain rfl : size = e.size := by omega
        refine .pure (.inl ⟨rfl, l, .refl hg hf, .none rfl rfl, ?_⟩)
        rw [← hf.holds.first, ← hm.first, ← hm.size]
        rfl

end Cutting

end ManiOS.Fat
