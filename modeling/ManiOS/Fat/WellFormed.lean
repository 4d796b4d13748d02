import ManiOS.Fat.Session

/-!
# Well-formed volumes stay well formed

`WellFormed` is what a file system check would look for on a FAT16 volume.
Every successful call through a node that has its entry keeps it
(`wellFormed_of_succeeds`), and so does every run of such calls.
-/

namespace ManiOS.Fat

open ManiOS.Lib List

/-- A FAT16 volume whose clusters are accounted for.  The FAT has an entry for
every cluster and its copies are equal.  The chain of every file and directory
is in range and ends, no two share a cluster, and a cluster on none is free or
marked bad. -/
structure Intact (g : Geometry) (v : Vol) : Prop where
  fat16 : g.fat12 = false
  holds : g.HoldsClusters
  copies : v.CopiesEqual g
  sound : ((v.disk g).tree g).Sound g []

/-- A FAT16 volume in order: intact, and every file has as many clusters as its
size needs. -/
structure WellFormed (g : Geometry) (v : Vol) : Prop extends Intact g v where
  sized : ((v.disk g).tree g).Sized g

/-- What every call through a node that has its entry keeps. -/
structure Session.Inv (g : Geometry) (s : Session) : Prop where
  cache : s.fs.Over g s.fs.vol
  good : s.fs.vol.Good g
  sound : ((s.fs.vol.disk g).tree g).Sound g []
  nodes : ∀ j n, s.nodes[j]? = some n → ¬ s.gone j → NodeOk g (s.fs.vol.disk g) n

section Step

variable {g : Geometry} {s s' : Session} {node : Nat} {op : Op} {r : Except Stop Int}

theorem Session.call_eq_some (h : s.call node op = some (r, s')) :
    ∃ n r' n' fs', s.nodes[node]? = some n ∧
      onFs (op.prog s.fs.toGeometry) n s.fs = ((r', n'), fs') ∧ r = r'.map Prod.fst ∧
      s' = s.after node r' n' fs' := by
  unfold Session.call at h
  cases hn : s.nodes[node]? with
  | none =>
    rw [hn] at h
    cases h
  | some n =>
    rw [hn] at h
    cases h
    exact ⟨n, _, _, _, rfl, rfl, rfl, rfl⟩

variable {fs' fs : FatFs} {α : Type} {n' : FatNode}

/-- A call run through the cache does what it does on the disk. -/
theorem Ensures.onUsable {agree : Prop} {m : FatM FatNode α} {n : FatNode}
    {r : Except Stop α} {post : Except Stop α → FatNode → Disk → Prop}
    (h : Does g agree m n (fs.vol.disk g) post) (hover : fs.Over g fs.vol)
    (hgood : fs.vol.Usable g agree) (hrun : onFs m n fs = ((r, n'), fs')) :
    fs'.Over g fs'.vol ∧ fs'.vol.Usable g agree ∧ post r n' (fs'.vol.disk g) := by
  obtain ⟨heq, hover'⟩ := onFs_over m n hover
  obtain ⟨hok, hpost⟩ := h fs.vol hgood rfl
  rw [hrun] at heq hover'
  have hvol : fs'.vol = (onVol m n fs.vol).2 := hover'.2.1
  have hres : (r, n') = (onVol m n fs.vol).1 := heq
  refine ⟨hvol ▸ hover', hvol ▸ hok, ?_⟩
  rw [hvol, show r = (onVol m n fs.vol).1.1 from congrArg Prod.fst hres,
    show n' = (onVol m n fs.vol).1.2 from congrArg Prod.snd hres]
  exact hpost

theorem Ensures.onFs {m : FatM FatNode α} {n : FatNode}
    {r : Except Stop α} {post : Except Stop α → FatNode → Disk → Prop}
    (h : Ensures (onDisk g True) m n (fs.vol.disk g) post) (hover : fs.Over g fs.vol)
    (hgood : fs.vol.Good g) (hrun : onFs m n fs = ((r, n'), fs')) :
    fs'.Over g fs'.vol ∧ fs'.vol.Good g ∧ post r n' (fs'.vol.disk g) := by
  obtain ⟨hover', hgood', hpost⟩ := Ensures.onUsable h hover hgood.toUsable hrun
  exact ⟨hover', ⟨hgood', hgood.fat16⟩, hpost⟩

theorem Session.after_nodes {r : Except Stop (Int × Option FatNode)}
    {j : Nat} {m : FatNode} (h : (s.after node r n' fs').nodes[j]? = some m) :
    (j ≠ node ∧ s.nodes[j]? = some m) ∨ (j = node ∧ m = n' ∧ node < s.nodes.length) ∨
      ∃ v, r = .ok (v, some m) := by
  have hnodes : (s.after node r n' fs').nodes = s.nodes.set node n' ++ opened r := rfl
  rw [hnodes, getElem?_append] at h
  split at h
  next hlt =>
    rw [length_set] at hlt
    by_cases hj : j = node
    · subst hj
      rw [getElem?_set_self hlt] at h
      exact .inr (.inl ⟨rfl, (Option.some.inj h).symm, hlt⟩)
    · rw [getElem?_set_ne (Ne.symm hj)] at h
      exact .inl ⟨hj, h⟩
  next =>
    have hmem := mem_of_getElem? h
    cases r with
    | error e => cases hmem
    | ok a =>
      obtain ⟨v, o⟩ := a
      cases o with
      | none => cases hmem
      | some m' =>
        rw [List.mem_singleton.mp hmem]
        exact .inr (.inr ⟨v, rfl⟩)

theorem Session.Inv.writable (h : s.Inv g) : g.readOnly = false := by
  have hro : s.fs.readOnly = false := h.good.writable
  rw [← h.cache.2.2]
  exact hro

/-- The step lemma. -/
theorem Session.Inv.calls (h : s.Inv g) (hc : s.Calls node op r s') :
    s'.Inv g ∧ (((s.fs.vol.disk g).tree g).Sized g → Success r →
      ((s'.fs.vol.disk g).tree g).Sized g) := by
  obtain ⟨n, r', n', fs', hn, hrun, rfl, rfl⟩ := Session.call_eq_some hc.call
  have hgeo : s.fs.toGeometry = g := h.cache.2.2
  rw [hgeo] at hrun
  obtain ⟨hover, hgood, hd⟩ := Ensures.onFs (ensures_op h.good.geometry h.writable h.sound
    (h.nodes node n hn hc.linked) op (hc.suits n hn)) h.cache h.good hrun
  have hgeo' : fs'.toGeometry = g := hover.2.2
  refine ⟨⟨hover, hgood, hd.sound, fun j m hm hlive => ?_⟩, hd.sized⟩
  -- a node that is not gone after the call has its entry
  have hlinked : ∀ m, s.nodes[j]? = some m → m.Linked g (fs'.vol.disk g) := by
    intro m hj
    by_contra hno
    exact hlive (.inr ⟨m, hj, by rw [hgeo']; exact hno⟩)
  rcases Session.after_nodes hm with ⟨-, hj⟩ | ⟨rfl, rfl, -⟩ | ⟨v, hv⟩
  · exact (h.nodes j m hj fun hg => hlive (.inl hg)).step hd.step (hlinked m hj)
  · exact hd.node (hlinked n hn)
  · exact hd.opens v m hv

theorem WellFormed.congr {v v' : Vol} (h : WellFormed g v) (he : v'.blocks = v.blocks) :
    WellFormed g v' := by
  obtain ⟨blocks', count', ro', hint'⟩ := v'
  cases he
  exact { h with }

theorem onFs_readOnly {σ : Type} (m : FatM σ α) (n : σ) (h : fs.Over g fs.vol)
    (hro : g.readOnly = true) :
    (onFs m n fs).2.Over g (onFs m n fs).2.vol ∧ (onFs m n fs).2.vol.blocks = fs.vol.blocks := by
  have hvol : fs.vol.readOnly = true := by
    rw [← h.2.2] at hro
    exact hro
  have hstep : ∀ q (t : FatFs) (v : Vol),
      t.Over g v ∧ v.blocks = fs.vol.blocks ∧ v.readOnly = true →
      (FatFs.handle q t).1 = (Vol.handle q v).1 ∧ ((FatFs.handle q t).2.Over g (Vol.handle q v).2 ∧
        (Vol.handle q v).2.blocks = fs.vol.blocks ∧ (Vol.handle q v).2.readOnly = true) := by
    rintro q t v ⟨hover, hblocks, hv⟩
    obtain ⟨heq, hover'⟩ := handle_over q t v hover
    refine ⟨heq, hover', ?_⟩
    cases q with
    | read s => exact ⟨hblocks, hv⟩
    | write s data =>
      rw [Vol.handle_write_erofs data hv]
      exact ⟨hblocks, hv⟩
    | getHint => exact ⟨hblocks, hv⟩
    | setHint hint => exact ⟨hblocks, hv⟩
  have hsim := Proc.exec_sim hstep m n ⟨h, rfl, hvol⟩
  obtain ⟨-, hover, hblocks, -⟩ := hsim
  exact ⟨hover.2.1.symm ▸ hover, (congrArg Vol.blocks hover.2.1).trans hblocks⟩

end Step

/-! ## Runs -/

/-- A successful call through a node that has its entry. -/
def Session.Succeeds (c : Nat × Op) (s s' : Session) : Prop :=
  ∃ r, s.Calls c.1 c.2 r s' ∧ Success r

variable {s : Session} {n : FatNode} {node : Nat}

theorem Session.call_next (hn : s.nodes[node]? = some n) (op : Op) : s.call node op =
        some ((onFs (op.prog s.fs.toGeometry) n s.fs).1.1.map Prod.fst, s.next node op) ∧
      s.next node op = s.after node (onFs (op.prog s.fs.toGeometry) n s.fs).1.1
        (onFs (op.prog s.fs.toGeometry) n s.fs).1.2 (onFs (op.prog s.fs.toGeometry) n s.fs).2 := by
  unfold Session.next Session.call
  rw [hn]
  exact ⟨rfl, rfl⟩

theorem Session.succeeds_next {op : Op}
    (hn : s.nodes[node]? = some n) (hlinked : ¬ s.gone node) (hsuit : op.Suits n)
    (hok : Success ((onFs (op.prog s.fs.toGeometry) n s.fs).1.1.map Prod.fst)) :
    Session.Succeeds (node, op) s (s.next node op) :=
  ⟨_, ⟨hlinked, fun _ hm => Option.some.inj (hn.symm.trans hm) ▸ hsuit,
    (Session.call_next hn op).1⟩, hok⟩

theorem Session.gone_next {j : Nat}
    (hn : s.nodes[node]? = some n) (op : Op) : (s.next node op).gone j ↔
      s.gone j ∨ ∃ m, s.nodes[j]? = some m ∧ ¬ m.Linked (s.next node op).fs.toGeometry
        ((s.next node op).fs.vol.disk (s.next node op).fs.toGeometry) := by
  rw [(Session.call_next hn op).2]
  exact Iff.rfl

section Run

variable {mem : Nat → Bool} {dev : Device} {fs : FatFs} {root : FatNode} {s : Session}

theorem fatMount_root (h : fatMount mem dev = .ok (fs, root)) :
    root = dirAt true 0 ∧ fs.dev = dev := by
  unfold fatMount at h
  split at h
  · cases h
  split at h
  · cases h
  split at h
  · cases h
  split at h
  · cases h
  split at h
  · cases h
  · cases h
    exact ⟨rfl, rfl⟩

theorem Session.start_inv (hmount : fatMount mem dev = .ok (fs, root)) (hdev : fs.Sound)
    (hro : fs.readOnly = false) (hv : Intact fs.toGeometry fs.vol) :
    (Session.start fs root).Inv fs.toGeometry := by
  obtain ⟨rfl, rfl⟩ := fatMount_root hmount
  refine ⟨⟨hdev, rfl, rfl⟩, ⟨⟨(fatMount_mounted hmount).1, hv.holds, hro, fun _ => hv.copies⟩, hv.fat16⟩,
    hv.sound, fun j n hn _ => ?_⟩
  have hmem := mem_of_getElem? hn
  rw [List.mem_singleton.mp hmem]
  exact .root ⟨.root, .root, rfl, rfl⟩

/-- A well-formed volume is well formed after every run of successful calls
through nodes that have their entries. -/
theorem wellFormed_of_succeeds (hmount : fatMount mem dev = .ok (fs, root)) (hdev : fs.Sound)
    (hwf : WellFormed fs.toGeometry fs.vol)
    (hrun : Reached Session.Succeeds (Session.start fs root) s) :
    WellFormed s.fs.toGeometry s.fs.vol := by
  by_cases hro : fs.readOnly = true
  · -- nothing is ever written
    have hinv := Reached.invariant (P := fun s : Session =>
      s.fs.Over fs.toGeometry s.fs.vol ∧ s.fs.vol.blocks = fs.vol.blocks)
      ⟨⟨hdev, rfl, rfl⟩, rfl⟩ (fun c s s' ⟨hover, hblocks⟩ ⟨r, hc, _⟩ => by
        obtain ⟨n, r', n', fs', hn, hcall, rfl, rfl⟩ := Session.call_eq_some hc.call
        obtain ⟨hover', hblocks'⟩ := onFs_readOnly (c.2.prog s.fs.toGeometry) n hover hro
        rw [hcall] at hover' hblocks'
        exact ⟨hover', hblocks'.trans hblocks⟩) hrun
    obtain ⟨hover, hblocks⟩ := hinv
    rw [hover.2.2]
    exact hwf.congr hblocks
  · have hro' : fs.readOnly = false := Bool.eq_false_iff.mpr hro
    have hinv := Reached.invariant (P := fun s : Session =>
      s.Inv fs.toGeometry ∧ ((s.fs.vol.disk fs.toGeometry).tree fs.toGeometry).Sized fs.toGeometry)
      ⟨Session.start_inv hmount hdev hro' hwf.toIntact, hwf.sized⟩
      (fun c s s' ⟨hinv, hsized⟩ ⟨r, hc, hok⟩ => by
        obtain ⟨hinv', hsized'⟩ := hinv.calls hc
        exact ⟨hinv', hsized' hsized hok⟩) hrun
    obtain ⟨hinv, hsized⟩ := hinv
    rw [hinv.cache.2.2]
    exact ⟨⟨hinv.good.fat16, hinv.good.holds, hinv.good.copies trivial, hinv.sound⟩, hsized⟩

end Run

/-! ### A small volume

The boot sector, two copies of a FAT16 of sixteen sectors, a root directory of
one sector, and as few clusters of one sector as FAT16 has, all of them free. -/

def smallBoot : Buf
  | 12 => 2
  | 13 => 1
  | 14 => 1
  | 16 => 2
  | 17 => 16
  | 19 => 0x17
  | 20 => 0x10
  | 21 => 0xF8
  | 22 => 16
  | 510 => 0x55
  | 511 => 0xAA
  | _ => 0

/-- A disk that never fails, with the volume and `root` as its root directory. -/
def smallDisk (root : Buf) : Device where
  isBlock := true
  blockSize := 512
  blocks := fun s => if s = 0 then smallBoot else if s = 33 then root else fun _ => 0
  blockCount := 4119
  readFails := fun _ => false
  canWrite := true
  writeFails := fun _ => false

def smallGeometry : Geometry where
  fat12 := false
  readOnly := false
  fats := 2
  sectorsPerCluster := 1
  bytesPerCluster := 512
  fatStart := 1
  fatSize := 16
  rootStart := 33
  rootBytes := 512
  dataStart := 34
  clusterCount := 4085

/-- The volume, mounted. -/
def smallFs (root : Buf) : FatFs where
  toGeometry := smallGeometry
  dev := smallDisk root
  hint := 2
  cachedSector := 0
  cacheValid := false
  cache := fun _ => 0

section Small

variable (root : Buf)

theorem fatMount_small :
    fatMount (fun _ => true) (smallDisk root) = .ok (smallFs root, dirAt true 0) := by
  have hgeo : (BootSector.parse smallBoot).geometry (smallDisk fun _ => 0) = .ok smallGeometry := by
    decide +kernel
  have hgeo' : (BootSector.parse smallBoot).geometry (smallDisk root) = .ok smallGeometry := hgeo
  have hread : deviceReadBlocks (smallDisk root) 0 = some smallBoot := rfl
  unfold fatMount
  rw [hread]
  simp only [hgeo']
  rfl

theorem smallFs_sound : (smallFs root).Sound :=
  ⟨fun h => Bool.noConfusion h, rfl, fun _ => rfl, fun _ => ⟨rfl, fun _ => rfl⟩⟩

theorem small_fatByte {k off : Nat} (hk : k < 2) (hoff : off < 16 * 512) :
    (smallFs root).vol.fatByte smallGeometry k off = 0 := by
  have hsector : fatSector smallGeometry k off = 1 + k * 16 + off / 512 := rfl
  show (if fatSector smallGeometry k off = 0 then smallBoot
    else if fatSector smallGeometry k off = 33 then root else fun _ => 0) _ = 0
  rw [if_neg (by omega), if_neg (by omega)]

theorem small_next (c : Nat) : ((smallFs root).vol.disk smallGeometry).next c = 0 := by
  show (if validCluster smallGeometry c then (smallFs root).vol.entry smallGeometry 0 c else 0) = 0
  split
  next hc =>
    have hlt : c < 4085 + 2 := validCluster_lt hc
    have hoff : entryOffset smallGeometry c = c * 2 := rfl
    unfold Vol.entry
    rw [small_fatByte root (by omega) (by omega), small_fatByte root (by omega) (by omega)]
    rfl
  next => rfl

theorem small_wellFormed (hroot : ∀ i e,
      (((smallFs root).vol.disk smallGeometry).tree smallGeometry).entry none i = some e →
      e.dir = false ∧ e.first = 0 ∧ e.size = 0) :
    WellFormed (smallFs root).toGeometry (smallFs root).vol := by
  have hdir : ∀ p, (((smallFs root).vol.disk smallGeometry).tree smallGeometry).IsDir p →
      p = none := by
    intro p hp
    induction hp with
    | root => rfl
    | sub _ he hd ih =>
      subst ih
      exact absurd hd (by simp [(hroot _ _ he).1])
  have hnil : ∀ l, (((smallFs root).vol.disk smallGeometry).tree smallGeometry).IsChain
      smallGeometry l → l = [] := by
    intro l hl
    cases l with
    | nil => rfl
    | cons c t =>
      rcases hl.next_valid_or_stop mem_cons_self with h | h
      · exact absurd (small_next root c) (validCluster_ne_zero h)
      · have h0 : (((smallFs root).vol.disk smallGeometry).tree smallGeometry).next c = 0 :=
          small_next root c
        rw [h0] at h
        cases h
  have hholds : smallGeometry.HoldsClusters := by
    unfold Geometry.HoldsClusters
    decide
  refine ⟨⟨rfl, hholds, ?_, ⟨?_, ?_, ?_, ?_⟩⟩, ?_⟩
  · intro k hk off hoff
    exact (small_fatByte root hk hoff).trans (small_fatByte root (by omega) hoff).symm
  · intro p i e hp he
    obtain rfl := hdir p hp
    obtain ⟨hfile, hfirst, -⟩ := hroot i e he
    exact ⟨[], .nil, hfirst, fun h => absurd h (by simp [hfile])⟩
  · intro p i e l p' i' e' l' hh hh' _ c hc
    rw [hnil l hh.chain] at hc
    cases hc
  · intro c _ hc
    exact absurd (small_next root c) hc
  · intro c hc
    cases hc
  · intro p i e l hh _
    obtain rfl := hdir p hh.dir
    rw [hnil l hh.chain, (hroot i e hh.entry).2.2]
    exact (show (0 : Nat) = (0 + 512 - 1) / 512 by decide)

end Small

/-- The small volume with nothing on it. -/
def blankFs : FatFs := smallFs fun _ => 0

theorem blank_wellFormed : WellFormed blankFs.toGeometry blankFs.vol := by
  refine small_wellFormed (fun _ => 0) fun i e he => ?_
  have hnone : ((blankFs.vol.disk smallGeometry).tree smallGeometry).entry none i = none :=
    entryAt_of_end ⟨0, Nat.zero_le i, by decide +kernel⟩
  exact absurd (he.symm.trans hnone) (by simp)

/-- A root directory that lists one empty file. -/
def oneFileRoot : Buf := fun j =>
  if j = 0 then 65 else if j < 11 then 32 else if j = 11 then 0x20 else 0

/-- The small volume with the file on it. -/
def oneFileFs : FatFs := smallFs oneFileRoot

def oneFileDisk : Disk := oneFileFs.vol.disk smallGeometry

theorem oneFile_wellFormed : WellFormed oneFileFs.toGeometry oneFileFs.vol := by
  refine small_wellFormed oneFileRoot fun i e he => ?_
  by_cases hi : i = 0
  · subst hi
    have hfirst : (oneFileDisk.tree smallGeometry).entry none 0 = some ⟨false, 0, 0⟩ := by
      decide +kernel
    obtain rfl : ⟨false, 0, 0⟩ = e := Option.some.inj (hfirst.symm.trans he)
    exact ⟨rfl, rfl, rfl⟩
  · have hnone : (oneFileDisk.tree smallGeometry).entry none i = none :=
      entryAt_of_end ⟨1, Nat.pos_of_ne_zero hi, by decide +kernel⟩
    exact absurd (he.symm.trans hnone) (by simp)

/-- The empty volume with a file on it. -/
def blankWithFile : Session :=
  (Session.start blankFs (dirAt true 0)).next 0 (.create true [65] .file)

def fileInRoot : FatNode :=
  { dirAt false 0 with type := .file, hasEntry := true, entryDirFixed := true }

theorem blankWithFile_succeeds :
    Session.Succeeds (0, .create true [65] .file) (Session.start blankFs (dirAt true 0))
      blankWithFile :=
  Session.succeeds_next rfl (fun h => h) rfl (by decide +kernel)

theorem blankWithFile_node : blankWithFile.nodes[1]? = some fileInRoot := by decide +kernel

theorem blankWithFile_writes : Session.Succeeds (1, .write 600 (fun _ => 7) 1) blankWithFile
      (blankWithFile.next 1 (.write 600 (fun _ => 7) 1)) := by
  have hopen : ¬ blankWithFile.gone 1 := by
    intro h
    rcases (Session.gone_next rfl _).mp h with h | ⟨m, hm, -⟩
    · exact h
    · cases hm
  exact Session.succeeds_next blankWithFile_node hopen trivial (by decide +kernel)

/-- A file is created on the empty volume, and a byte written past its first
cluster. -/
theorem wellFormed_of_succeeds_blank :
    ∃ s, Reached Session.Succeeds (Session.start blankFs (dirAt true 0)) s ∧
      s.nodes.length = 2 ∧ WellFormed s.fs.toGeometry s.fs.vol := by
  have hrun : Reached Session.Succeeds (Session.start blankFs (dirAt true 0)) _ :=
    .step _ (.step _ .start blankWithFile_succeeds) blankWithFile_writes
  exact ⟨_, hrun, by decide +kernel,
    wellFormed_of_succeeds (fatMount_small _) (smallFs_sound _) blank_wellFormed hrun⟩

end ManiOS.Fat
