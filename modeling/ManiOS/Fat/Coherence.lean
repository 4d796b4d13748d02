import ManiOS.Fat.Frame

/-!
# Files read as they were written

Each node keeps the size, the first cluster and a cursor of its file.  Writes
bring them up to date by `refresh_entry`, reads do not.  So a read through one
node does not see what was written through another, and after a cut it may read
clusters the file no longer has.  And `fat_write` does not clear the gap when it
starts after the end: the bytes there are what the clusters held before.
`fatRead_stale` is a run for each.

Apart from these two, a file is an array of bytes (`Contents`).  `Shared` is a
file open through any number of nodes.  Successful writes and cuts do to the
file what they do to the array (`Holding.write`, `Holding.cut`), and a read
through a node that is up to date (`Current`) returns its bytes
(`fatRead_coherent`).
-/

namespace ManiOS.Fat

open ManiOS.Lib

/-! ## Contents -/

/-- The bytes of a file as its users see them, with zeros after the end. -/
structure Contents where
  size : Nat
  byte : Nat → UInt8
  zero : ∀ o, size ≤ o → byte o = 0

/-- `k` bytes written at `off`. -/
def Contents.write (c : Contents) (off : Nat) (buf : Buf) (k : Nat) : Contents where
  size := if k = 0 then c.size else max c.size (off + k)
  byte o := if off ≤ o ∧ o < off + k then buf (o - off) else c.byte o
  zero o ho := by
    have hle : c.size ≤ o ∧ (k = 0 ∨ off + k ≤ o) := by
      split at ho <;> omega
    rw [if_neg (by omega)]
    exact c.zero o hle.1

def Contents.cut (c : Contents) (size : Nat) : Contents where
  size := size
  byte o := if o < size then c.byte o else 0
  zero o ho := if_neg (by omega)

/-- How many of `len` bytes at `off` there are. -/
def Contents.readable (c : Contents) (off len : Nat) : Nat := min len (c.size - off)

/-- The file in slot `i` of directory `p` has the contents `c`. -/
structure Holding (g : Geometry) (d : Disk) (p : Option Nat) (s : Place) (i : Nat) (e : Entry)
    (l : List Nat) (c : Contents) : Prop where
  file : FileAt g d p s i e l
  sized : l.length = (e.size + g.bytesPerCluster - 1) / g.bytesPerCluster
  size : c.size = e.size
  bytes : ∀ o < c.size, d.byteAt g (.clusters l) o = c.byte o

section Disks

variable {g : Geometry} {d d' : Disk} {n : FatNode} {p : Option Nat} {s : Place} {i : Nat}
  {e : Entry} {l l' : List Nat} {c : Contents}

theorem Holding.fits (hg : g.Fat16) (h : Holding g d p s i e l c) :
    c.size ≤ (Place.clusters l).size g := by
  show c.size ≤ l.length * g.bytesPerCluster
  rw [h.size, h.sized]
  exact le_ceil_mul (bpc_pos hg.toUsable) e.size

theorem Rewritten.fileAt {size : Nat} (hg : g.Fat16) (hf : FileAt g d p s i e l)
    (h : Rewritten g d s i l size d' l') (hsize : size < 4294967296) :
    FileAt g d' p s i { e with first := l'.headD 0, size := size } l' := by
  obtain ⟨hsp, u⟩ := h.update hg hf hsize
  exact ⟨u.sound hg hf.sound, hsp, u.holds_self rfl, hf.file⟩

theorem byteAt_append (d : Disk) {a b : List Nat} {o : Nat} (ho : o < (Place.clusters a).size g) :
    d.byteAt g (.clusters (a ++ b)) o = d.byteAt g (.clusters a) o := by
  show d.data ((a ++ b).getD _ 0) _ = d.data (a.getD _ 0) _
  rw [List.getD_append _ _ _ _ (div_lt_of_lt_size ho)]

theorem Holding.write {off len k : Nat} {buf : Buf} (hg : g.Fat16) (h : Holding g d p s i e l c)
    (hres : WriteResult g d s i e l off buf len k d' l') (hok : 0 ≤ writeValue len k)
    (hgap : k = 0 ∨ off ≤ c.size) :
    Holding g d' p s i { e with first := l'.headD 0, size := sizeAfter e.size off k } l'
      (c.write off buf k) := by
  have hw := hres.wrote
  obtain ⟨-, hk⟩ := writeValue_nonneg (hw.lt hg) hok
  have hsize : (c.write off buf k).size = sizeAfter e.size off k := by
    show (if k = 0 then c.size else max c.size (off + k)) = _
    have hpos := toLong_pos (hw.lt hg)
    rw [sizeAfter, h.size]
    split <;> split <;> omega
  have hfile := (hw.rewritten hg h.file).fileAt hg h.file (hw.size_lt hg (h.file.size_lt hg))
  have hsized := hres.sized hg h.sized hok
  refine ⟨hfile, hsized, hsize, fun o ho => ?_⟩
  have hin : o < (Place.clusters l').size g := by
    show o < l'.length * g.bytesPerCluster
    rw [hsized]
    exact lt_of_lt_of_le (hsize ▸ ho) (le_ceil_mul (bpc_pos hg.toUsable) _)
  rw [hw.byteAt hg h.file hin]
  show _ = if off ≤ o ∧ o < off + k then buf (o - off) else c.byte o
  split
  next => rfl
  next hout =>
    -- a byte outside the write was there before: the write did not start after the end
    have hold : o < c.size := by
      have : (c.write off buf k).size = if k = 0 then c.size else max c.size (off + k) := rfl
      split at this <;> omega
    obtain ⟨ex, rfl⟩ := hw.grown
    rw [byteAt_append d (lt_of_lt_of_le hold (h.fits hg))]
    exact h.bytes o hold

theorem Holding.cut {size : Nat} (hg : g.Fat16) (h : Holding g d p s i e l c)
    (hcut : Cut g d s i l size d' l') (hshort : Shortened g e l size l') :
    Holding g d' p s i { e with first := l'.headD 0, size := size } l' (c.cut size) := by
  have hr := hcut.rewritten hg h.file
  have hfile := hr.fileAt hg h.file (lt_of_le_of_lt hshort.le (h.file.size_lt hg))
  have hsized := hshort.sized hg h.file h.sized
  refine ⟨hfile, hsized, rfl, fun o (ho : o < size) => ?_⟩
  have hin : o < (Place.clusters l').size g := by
    show o < l'.length * g.bytesPerCluster
    rw [hsized]
    exact lt_of_lt_of_le ho (le_ceil_mul (bpc_pos hg.toUsable) _)
  have hold : o < c.size := by
    rw [h.size]
    exact lt_of_lt_of_le ho hshort.le
  show _ = if o < size then c.byte o else 0
  rw [if_pos ho, ← h.bytes o hold]
  obtain ⟨t, rfl⟩ := hcut.kept
  rw [byteAt_append d hin]
  refine byteAt_clusters_congr (fun x hx => ?_) hin
  rw [hcut.bytes.data]
  refine (Within.put s d _ _ _).data x fun ls hls hxs => ?_
  subst hls
  exact h.file.dir_apart hg (fun _ ha hn => absurd ha hn) h.file.holds.dir h.file.stored hxs
    (List.mem_append_left t hx)

/-- What a node keeps of the file is enough for a read of `len` bytes at `off`:
its size allows as many bytes, fewer than `2 ^ 31`, and if it allows any, its
first cluster is the file's and its cursor is on the chain or not used. -/
structure Current (g : Geometry) (e : Entry) (l : List Nat) (n : FatNode) (off len : Nat) :
    Prop where
  clamp : min len (n.size - off) = min len (e.size - off)
  small : min len (e.size - off) < 2147483648
  node : 0 < min len (e.size - off) → n.firstCluster = e.first ∧
    (n.cursorCluster = 0 ∨ off / g.bytesPerCluster < n.cursorIndex ∨
      l[n.cursorIndex]? = some n.cursorCluster)

theorem Holding.read {agree : Prop} {off len : Nat} (hg : g.Fat16) (h : Holding g d p s i e l c)
    (hroot : n.fixedRoot = false) (hcur : Current g e l n off len) (buf : Buf) :
    Does g agree (fatRead g off buf len) n d fun r _ _ =>
      r = .ok (((c.readable off len : Nat) : Int),
        memcpy buf 0 (fun o => c.byte (off + o)) 0 (c.readable off len)) := by
  have hk : c.readable off len = min len (e.size - off) := by rw [Contents.readable, h.size]
  have hread : c.readable off len = min len (n.size - off) := hk.trans hcur.clamp.symm
  have hin : 0 < c.readable off len → off + c.readable off len ≤ c.size := fun hpos => by
    rw [Contents.readable] at hpos ⊢
    omega
  generalize c.readable off len = k at hk hread hin ⊢
  refine .get_bind ?_
  by_cases hend : off ≥ n.size
  · rw [if_pos hend]
    obtain rfl : k = 0 := by omega
    exact .pure rfl
  · rw [if_neg hend, ← hread]
    refine .tryCatch (.bind ?_)
    rcases Nat.eq_zero_or_pos k with rfl | hpos
    · exact .pure (.pure rfl)
    · obtain ⟨hfirst, hcursor⟩ := hcur.node (hk ▸ hpos)
      have hat : ReadsAt g d n off (.clusters l) :=
        ⟨hroot, h.file.holds.chain, hfirst.trans h.file.holds.first, hcursor⟩
      refine (ensures_nodeReadFrom hg k off 0 buf n (fun _ => hat) (Nat.zero_le _)
        ((hin hpos).trans (h.fits hg)) le_rfl).mono ?_
      rintro r n' d' ⟨rfl, rfl, -, -⟩
      refine .pure ?_
      rw [toLong_of_lt (hk ▸ hcur.small)]
      congr 2
      funext o
      simp only [memcpy, zero_add, Nat.sub_zero]
      split
      next ho => exact h.bytes _ (by have := hin hpos; omega)
      next => rfl

end Disks

/-! ## A file open through several nodes -/

/-- A volume, and nodes of one file on it. -/
structure Shared (ι : Type) where
  fs : FatFs
  node : ι → FatNode

/-- A call through one of the nodes. -/
inductive FileCall where
  | write (offset : Nat) (buf : Buf) (len : Nat)
  | truncate (size : Nat)
  | read (offset : Nat) (buf : Buf) (len : Nat)

/-- What is left of node `j` and of the volume by a call through it. -/
def Shared.after {ι : Type} [DecidableEq ι] (s : Shared ι) (j : ι) (n : FatNode) (fs : FatFs) :
    Shared ι :=
  ⟨fs, fun k => if k = j then n else s.node k⟩

/-- A successful call, and what it does to the contents.  A write does not
start after the end of the file, or writes nothing. -/
inductive Shared.Calls {ι : Type} [DecidableEq ι] :
    ι × FileCall → Shared ι × Contents → Shared ι × Contents → Prop
  | write {s : Shared ι} {c : Contents} {j : ι} {off len : Nat} {buf : Buf} {v : Int}
      {n : FatNode} {fs : FatFs}
      (hrun : onFs (fatWrite s.fs.toGeometry off buf len) (s.node j) s.fs = ((.ok v, n), fs))
      (hok : 0 ≤ v) (hgap : v = 0 ∨ off ≤ c.size) :
      Calls (j, .write off buf len) (s, c) (s.after j n fs, c.write off buf v.toNat)
  | truncate {s : Shared ι} {c : Contents} {j : ι} {size : Nat} {n : FatNode} {fs : FatFs}
      (hrun : onFs (fatTruncate s.fs.toGeometry size) (s.node j) s.fs = ((.ok (), n), fs)) :
      Calls (j, .truncate size) (s, c) (s.after j n fs, c.cut size)
  | read {s : Shared ι} {c : Contents} {j : ι} {off len : Nat} {buf : Buf}
      {r : Except Stop (Int × Buf)} {n : FatNode} {fs : FatFs}
      (hrun : onFs (fatRead s.fs.toGeometry off buf len) (s.node j) s.fs = ((r, n), fs)) :
      Calls (j, .read off buf len) (s, c) (s.after j n fs, c)

/-- The volume as if it took writes. -/
def Vol.unlocked (v : Vol) : Vol := { v with readOnly := false }

/-- A node of the file in slot `i` of directory `p`. -/
structure NodeOf (n : FatNode) (p : Option Nat) (i : Nat) : Prop where
  slot : n.Remembers p i
  type : n.type ≠ .dir
  notRoot : n.fixedRoot = false

variable {n : FatNode}

theorem NodeOf.still_iff {p : Option Nat} {i : Nat} : NodeOf n.still p i ↔ NodeOf n p i :=
  ⟨fun h => ⟨{ h.slot with }, h.type, h.notRoot⟩,
    fun h => ⟨{ h.slot with }, h.type, h.notRoot⟩⟩

/-- What every call keeps. -/
structure Shared.Inv {ι : Type} (g : Geometry) (p : Option Nat) (pl : Place) (i : Nat)
    (x : Shared ι × Contents) : Prop where
  cache : x.1.fs.Over g x.1.fs.vol
  good : x.1.fs.vol.unlocked.Good g
  holding : ∃ e l, Holding g (x.1.fs.vol.disk g) p pl i e l x.2
  nodes : ∀ j, NodeOf (x.1.node j) p i

section Shared

variable {ι : Type} {g : Geometry} {p : Option Nat} {pl : Place} {i : Nat}
  {x x' : Shared ι × Contents}

variable {fs : FatFs}

theorem ensures_onReads {agree : Prop} {α : Type} {m : FatM FatNode α} {n' : FatNode}
    {fs' : FatFs} {r : Except Stop α} {post : Except Stop α → FatNode → Disk → Prop}
    (hm : m.ReadsOnly FatNode.still) (h : Does g agree m n (fs.vol.disk g) post)
    (hover : fs.Over g fs.vol)
    (hgood : fs.vol.unlocked.Usable g agree) (hrun : onFs m n fs = ((r, n'), fs')) :
    post r n' (fs.vol.disk g) := by
  obtain ⟨heq, -⟩ := onFs_over m n hover
  rw [hrun, hm.writable n fs.vol false] at heq
  have hres : (r, n') = (onVol m n fs.vol.unlocked).1 := heq
  obtain ⟨-, hpost⟩ := h fs.vol.unlocked hgood rfl
  rw [show (m.exec (onDisk g agree).handler n fs.vol.unlocked).2 = fs.vol.unlocked from
    hm.kept n fs.vol.unlocked] at hpost
  rw [show r = (onVol m n fs.vol.unlocked).1.1 from congrArg Prod.fst hres,
    show n' = (onVol m n fs.vol.unlocked).1.2 from congrArg Prod.snd hres]
  exact hpost

theorem onFs_reads {α : Type} {m : FatM FatNode α} {n' : FatNode} {fs' : FatFs}
    {r : Except Stop α} (hm : m.ReadsOnly FatNode.still) (hover : fs.Over g fs.vol)
    (hrun : onFs m n fs = ((r, n'), fs')) : fs'.Over g fs'.vol ∧ fs'.vol = fs.vol := by
  obtain ⟨-, hover'⟩ := onFs_over m n hover
  rw [hrun] at hover'
  have hvol : fs'.vol = fs.vol := hover'.2.1.trans (hm.kept n fs.vol)
  exact ⟨hover'.2.1.symm ▸ hover', hvol⟩

theorem unlocked_eq (hover : fs.Over g fs.vol) (hro : g.readOnly = false) :
    fs.vol.unlocked = fs.vol := by
  have hfs : fs.vol.readOnly = false := by
    show fs.readOnly = false
    rw [hover.2.2]
    exact hro
  unfold Vol.unlocked
  rw [← hfs]

theorem Shared.Inv.writable (h : Shared.Inv g p pl i x) (hro : g.readOnly = false) :
    x.1.fs.vol.Good g := by
  have hvol := unlocked_eq h.cache hro
  exact hvol ▸ h.good

theorem unlocked_good {v : Vol} (h : v.Good g) : v.unlocked.Good g :=
  ⟨⟨h.mounted, h.holds, rfl, h.copies⟩, h.fat16⟩

theorem Shared.after_nodes [DecidableEq ι] {s : Shared ι} {j : ι}
    (h : ∀ k, NodeOf (s.node k) p i) (hn : NodeOf n p i) (k : ι) :
    NodeOf ((s.after j n fs).node k) p i := by
  show NodeOf (if k = j then n else s.node k) p i
  split
  · exact hn
  · exact h k

/-- The step lemma. -/
theorem Shared.Inv.calls [DecidableEq ι] {c : ι × FileCall} (h : Shared.Inv g p pl i x)
    (hc : Shared.Calls c x x') : Shared.Inv g p pl i x' := by
  obtain ⟨e, l, hh⟩ := h.holding
  cases hc with
  | @write s c j off len buf v n fs hrun hok hgap =>
    have hgeo : s.fs.toGeometry = g := h.cache.2.2
    rw [hgeo] at hrun
    have hj := h.nodes j
    cases hro : g.readOnly with
    | true =>
      -- the call would have failed
      unfold fatWrite at hrun
      rw [hro] at hrun
      cases hrun
      exact absurd hok (Int.not_le.mpr (Errno.negated_neg _))
    | false =>
      have hgood := h.writable hro
      obtain ⟨hover, hgood', k, l', hv, hres, rfl⟩ := Ensures.onFs (ensures_fatWrite
        hgood.geometry hh.file hj.slot hj.type hj.notRoot hro off buf len) h.cache hgood hrun
      obtain rfl : v = writeValue len k := Except.ok.inj hv
      have hk := hres.wrote.lt hgood.geometry
      obtain ⟨hmore, hsmall⟩ := writeValue_nonneg hk hok
      have hval : writeValue len k = k := by
        rw [writeValue, if_neg hmore, toLong_of_lt hsmall]
      have hcount : (writeValue len k).toNat = k := by rw [hval, Int.toNat_natCast]
      rw [hcount]
      exact ⟨hover, unlocked_good hgood', ⟨_, _, hh.write hgood.geometry hres hok (by omega)⟩,
        Shared.after_nodes h.nodes ⟨{ hj.slot with }, hj.type, hj.notRoot⟩⟩
  | @truncate s c j size n fs hrun =>
    have hgeo : s.fs.toGeometry = g := h.cache.2.2
    rw [hgeo] at hrun
    have hj := h.nodes j
    cases hro : g.readOnly with
    | true =>
      unfold fatTruncate at hrun
      rw [hro] at hrun
      cases hrun
    | false =>
      have hgood := h.writable hro
      obtain ⟨hover, hgood', ⟨-, l', hcut, hshort, rfl⟩ | ⟨err, herr, -⟩⟩ :=
        Ensures.onFs (ensures_fatTruncate hgood.geometry hh.file hj.slot hj.type hj.notRoot
          hro size) h.cache hgood hrun
      · exact ⟨hover, unlocked_good hgood', ⟨_, _, hh.cut hgood.geometry hcut hshort⟩,
          Shared.after_nodes h.nodes ⟨{ hj.slot with }, hj.type, hj.notRoot⟩⟩
      · cases herr
  | @read s c j off len buf r n fs hrun =>
    have hgeo : s.fs.toGeometry = g := h.cache.2.2
    rw [hgeo] at hrun
    have hj := h.nodes j
    obtain ⟨hover, hvol⟩ := onFs_reads (reads_fatRead off buf len) h.cache hrun
    have hstill := (reads_fatRead (g := g) off buf len).still (h := FatFs.handle) (s.node j) s.fs
    rw [show Proc.exec FatFs.handle _ _ _ = _ from hrun] at hstill
    refine ⟨hover, ?_, ⟨e, l, ?_⟩, Shared.after_nodes h.nodes ?_⟩
    · show fs.vol.unlocked.Good g
      rw [hvol]
      exact h.good
    · show Holding g (fs.vol.disk g) p pl i e l c
      rw [hvol]
      exact hh
    · have hn : n.still = (s.node j).still := hstill
      exact NodeOf.still_iff.mp (hn ▸ NodeOf.still_iff.mpr hj)

end Shared

/-! ## Runs -/

def Disk.contents (g : Geometry) (d : Disk) (e : Entry) (l : List Nat) : Contents where
  size := e.size
  byte o := if o < e.size then d.byteAt g (.clusters l) o else 0
  zero o ho := if_neg (by omega)

/-- `fat_walk` through a node of directory `p` finds slot `i` and returns `m`. -/
def WalksTo (fs : FatFs) (p : Option Nat) (i : Nat) (m : FatNode) : Prop :=
  ∃ dir pl mem name dir' fs', DirNode fs.toGeometry (fs.vol.disk fs.toGeometry) dir p pl ∧
    onFs (fatWalk fs.toGeometry mem name) dir fs = ((.ok m, dir'), fs') ∧ m.entryOff = 32 * i

section Run

variable {ι : Type} {mem : Nat → Bool} {dev : Device} {fs₀ fs : FatFs} {root : FatNode}
  {p : Option Nat} {i : Nat} {e : Entry} {l : List Nat}

theorem WalksTo.nodeOf {m : FatNode} (hdev : fs.Sound) (hgood : fs.vol.unlocked.Good fs.toGeometry)
    (hs : ((fs.vol.disk fs.toGeometry).tree fs.toGeometry).Sound fs.toGeometry [])
    (he : ((fs.vol.disk fs.toGeometry).tree fs.toGeometry).entry p i = some e)
    (hfile : e.dir = false) (h : WalksTo fs p i m) : NodeOf m p i := by
  obtain ⟨dir, pl, mem, name, dir', fs', hdir, hrun, hoff⟩ := h
  obtain ⟨-, -, -, hnew⟩ := ensures_onReads (reads_fatWalk mem name)
    (ensures_fatWalk hgood.geometry hs hdir mem name) ⟨hdev, rfl, rfl⟩ hgood.toUsable hrun
  obtain ⟨i', -, -, ho⟩ := hnew m rfl
  obtain rfl : i' = i := by
    have := ho.slot.entryOff
    omega
  refine ⟨ho.slot, fun htype => ?_, ho.notRoot⟩
  have hdir : e.dir = true := by
    rw [← Option.some.inj (ho.entry.symm.trans he)]
    exact ho.type.mp htype
  rw [hfile] at hdir
  cases hdir

/-- After every run of successful calls through nodes that a walk to a file gave,
in which no write starts after the end, `fat_read` through a node that is up to
date returns the bytes of the file as last written. -/
theorem fatRead_coherent [DecidableEq ι] (hm : fatMount mem dev = .ok (fs₀, root))
    (hgeo : fs.toGeometry = fs₀.toGeometry) (hcount : fs.dev.blockCount = dev.blockCount)
    (hdev : fs.Sound) (hwf : WellFormed fs.toGeometry fs.vol)
    (hh : ((fs.vol.disk fs.toGeometry).tree fs.toGeometry).Holds fs.toGeometry p i e l)
    (hfile : e.dir = false) {node : ι → FatNode} (hwalk : ∀ j, WalksTo fs p i (node j))
    {s : Shared ι} {c : Contents} (hrun : Reached Shared.Calls
      (⟨fs, node⟩, (fs.vol.disk fs.toGeometry).contents fs.toGeometry e l) (s, c))
    {e' : Entry} {l' : List Nat}
    (hh' : ((s.fs.vol.disk fs.toGeometry).tree fs.toGeometry).Holds fs.toGeometry p i e' l')
    {j : ι} {off len : Nat} (hcur : Current fs.toGeometry e' l' (s.node j) off len) (buf : Buf) :
    ∃ n' fs', onFs (fatRead s.fs.toGeometry off buf len) (s.node j) s.fs =
      ((.ok (((c.readable off len : Nat) : Int),
        memcpy buf 0 (fun o => c.byte (off + o)) 0 (c.readable off len)), n'), fs') := by
  have hgood : fs.vol.unlocked.Good fs.toGeometry := by
    refine ⟨⟨?_, hwf.holds, rfl, fun _ => hwf.copies⟩, hwf.fat16⟩
    show fs.Mounted fs.dev.blockCount
    rw [hgeo, hcount]
    exact (fatMount_mounted hm).1
  obtain ⟨pl, hstored⟩ := hwf.sound.stored hh.dir
  have hstart : Shared.Inv fs.toGeometry p pl i
      ((⟨fs, node⟩ : Shared ι), (fs.vol.disk fs.toGeometry).contents fs.toGeometry e l) :=
    ⟨⟨hdev, rfl, rfl⟩, hgood, ⟨e, l, ⟨⟨hwf.sound, hstored, hh, hfile⟩, hwf.sized p i e l hh hfile,
      rfl, fun o ho => (if_pos ho).symm⟩⟩,
      fun j => (hwalk j).nodeOf hdev hgood hwf.sound hh.entry hfile⟩
  have hinv := Reached.invariant (P := Shared.Inv fs.toGeometry p pl i) hstart
    (fun c x x' h hc => h.calls hc) hrun
  obtain ⟨e1, l1, hhold⟩ := hinv.holding
  obtain rfl : e' = e1 := Option.some.inj (hh'.entry.symm.trans hhold.file.holds.entry)
  obtain rfl := hh'.unique hgood.geometry hhold.file.holds
  have hgeo' : s.fs.toGeometry = fs.toGeometry := hinv.cache.2.2
  rw [hgeo']
  rcases hread : onFs (fatRead fs.toGeometry off buf len) (s.node j) s.fs with ⟨⟨r, n'⟩, fs'⟩
  have hres := ensures_onReads (reads_fatRead off buf len)
    (hhold.read hinv.good.geometry (hinv.nodes j).notRoot hcur buf) hinv.cache
    hinv.good.toUsable hread
  exact ⟨n', fs', by rw [hres]⟩

end Run

/-- A node as new as a walk or a write leaves it is up to date. -/
theorem FileNode.current {g : Geometry} {p : Option Nat} {i off len : Nat}
    {e : Entry} (h : FileNode n p i e) (l : List Nat) (hsmall : len < 2147483648) :
    Current g e l n off len where
  clamp := by rw [h.size]
  small := lt_of_le_of_lt (min_le_left _ _) hsmall
  node _ := ⟨h.first, .inl h.cursorCluster⟩

/-! ### Two nodes of one file -/

/-- The volume with one empty file, which two nodes are open on. -/
def twoNodes : Shared Bool := ⟨oneFileFs, fun _ => fileInRoot⟩

def emptyContents : Contents := oneFileDisk.contents smallGeometry ⟨false, 0, 0⟩ []

theorem onFs_eq {α : Type} {m : FatM FatNode α} {fs : FatFs} {a : α}
    (h : (onFs m n fs).1.1 = .ok a) :
    onFs m n fs = ((.ok a, (onFs m n fs).1.2), (onFs m n fs).2) := by
  rw [← h]

theorem twoNodes_walk (j : Bool) : WalksTo oneFileFs none 0 (twoNodes.node j) := by
  have hwalk : (onFs (fatWalk oneFileFs.toGeometry true [65]) (dirAt true 0) oneFileFs).1.1 =
      .ok fileInRoot := by
    decide +kernel
  exact ⟨dirAt true 0, .root, true, [65], _, _, ⟨.root, .root, rfl, rfl⟩, onFs_eq hwalk, rfl⟩

theorem twoNodes_holds :
    (oneFileDisk.tree smallGeometry).Holds smallGeometry none 0 ⟨false, 0, 0⟩ [] :=
  ⟨.root, by decide +kernel, ⟨trivial, fun _ h => (nomatch h)⟩, rfl⟩

/-- A write of `len` bytes at `off` through node `true`, all of them 7. -/
def Shared.fill (s : Shared Bool) (off len : Nat) : Shared Bool :=
  let x := onFs (fatWrite s.fs.toGeometry off (fun _ => 7) len) (s.node true) s.fs
  s.after true x.1.2 x.2

theorem twoNodes_fill : Shared.Calls (true, .write 0 (fun _ => 7) 1) (twoNodes, emptyContents)
    (twoNodes.fill 0 1, emptyContents.write 0 (fun _ => 7) 1) := by
  have hwrite : (onFs (fatWrite twoNodes.fs.toGeometry 0 (fun _ => 7) 1) (twoNodes.node true)
      twoNodes.fs).1.1 = .ok 1 := by
    decide +kernel
  exact .write (onFs_eq hwrite) (by decide) (.inr (Nat.zero_le _))

/-- The file with one byte in it. -/
def oneByte : Contents := emptyContents.write 0 (fun _ => 7) 1

/-- The node a byte was written through reads it. -/
theorem fatRead_coherent_own : oneByte.readable 0 1 = 1 ∧ oneByte.byte 0 = 7 ∧
      ∃ n' fs', onFs (fatRead (twoNodes.fill 0 1).fs.toGeometry 0 (fun _ => 0) 1)
          ((twoNodes.fill 0 1).node true) (twoNodes.fill 0 1).fs =
        ((.ok (((oneByte.readable 0 1 : Nat) : Int),
          memcpy (fun _ => 0) 0 (fun o => oneByte.byte (0 + o)) 0 (oneByte.readable 0 1)), n'),
          fs') := by
  have hchain : (((twoNodes.fill 0 1).fs.vol.disk smallGeometry).tree smallGeometry).Holds
      smallGeometry none 0 ⟨false, 2, 1⟩ [2] := by
    refine ⟨.root, by decide +kernel, ⟨?_, ?_⟩, rfl⟩
    · show isEndOfChain smallGeometry (((twoNodes.fill 0 1).fs.vol.disk smallGeometry).next 2) = true
      decide +kernel
    · intro a ha
      rw [List.mem_singleton.mp ha]
      decide
  have hnode : FileNode ((twoNodes.fill 0 1).node true) none 0 ⟨false, 2, 1⟩ :=
    ⟨⟨by decide +kernel, by decide +kernel, by decide +kernel⟩, by decide +kernel,
      by decide +kernel, by decide +kernel, by decide +kernel, by decide +kernel,
      by decide +kernel⟩
  have hcur : Current smallGeometry ⟨false, 2, 1⟩ [2] ((twoNodes.fill 0 1).node true) 0 1 :=
    hnode.current [2] (by decide)
  exact ⟨rfl, rfl, fatRead_coherent (fatMount_small oneFileRoot) rfl rfl (smallFs_sound _)
    oneFile_wellFormed twoNodes_holds rfl twoNodes_walk (.step _ .start twoNodes_fill) hchain hcur
    fun _ => 0⟩

/-- The first byte that `fat_read` at offset 0 returns through node `j`, after the
count. -/
def Shared.firstByte (s : Shared Bool) (j : Bool) : Except Stop (Int × UInt8) :=
  (onFs (fatRead s.fs.toGeometry 0 (fun _ => 0) 1) (s.node j) s.fs).1.1.map fun x => (x.1, x.2 0)

/-- Node `true` cuts the file to nothing. -/
def Shared.empty (s : Shared Bool) : Shared Bool :=
  let x := onFs (fatTruncate s.fs.toGeometry 0) (s.node true) s.fs
  s.after true x.1.2 x.2

/-- The other node does not see the byte: it still has the old size.  And where a
write leaves a gap, both see what was in the cluster before. -/
theorem fatRead_stale :
    fatMount (fun _ => true) (smallDisk oneFileRoot) = .ok (oneFileFs, dirAt true 0) ∧
      WellFormed oneFileFs.toGeometry oneFileFs.vol ∧
      (∀ j, WalksTo oneFileFs none 0 (twoNodes.node j)) ∧
      Reached Shared.Calls (twoNodes, emptyContents) (twoNodes.fill 0 1, oneByte) ∧
      oneByte.readable 0 1 = 1 ∧ (twoNodes.fill 0 1).firstByte false = .ok (0, 0) ∧
      (((emptyContents.write 0 (fun _ => 7) 9).cut 0).write 8 (fun _ => 7) 1).byte 0 = 0 ∧
      (((twoNodes.fill 0 9).empty).fill 8 1).firstByte true = .ok (1, 7) := by
  refine ⟨fatMount_small _, oneFile_wellFormed, twoNodes_walk, .step _ .start twoNodes_fill, rfl,
    by decide +kernel, rfl, by decide +kernel⟩

end ManiOS.Fat
