import ManiOS.Fat.Disk

/-!
# What a call asks of the disk

A call of `fat.c` is a list of sectors read and written, and the result.  This
module looks at the list (`accesses`), whatever the device answers.

`fat_mount` never compares the size of the FAT with the number of clusters.
An entry past the end of the FAT is read and written all the same, in the next
copy, the root directory or the data.  `fat_inside_iff` says which volumes have
no such entry.
-/

namespace ManiOS.Fat

open ManiOS.Lib List

section Accesses

variable {σ α : Type}

/-- The sectors a call reads and writes, in order. -/
def accesses (m : FatM σ α) (n : σ) (fs : FatFs) : List SectorOp :=
  (m.exec (Prog.logged FatFs.handle) n (fs, [])).2.2

/-- The code and what it has asked for, in the states of the file system that
`ok` holds of. -/
def onLog (ok : FatFs → Prop) :
    Abstraction SectorOp SectorOp.Answer (FatFs × List SectorOp) (List SectorOp) where
  handler := Prog.logged FatFs.handle
  ok s := ok s.1
  view := Prod.snd

def SectorOp.sector : SectorOp → Option Nat
  | .read s => some s
  | .write s _ => some s
  | _ => none

end Accesses

/-! ## Inside the FAT -/

/-- The sectors of copy `k` of the FAT. -/
def Geometry.InCopy (g : Geometry) (k s : Nat) : Prop :=
  g.fatStart + k * g.fatSize ≤ s ∧ s < g.fatStart + (k + 1) * g.fatSize

/-- The sector of byte `off` of a copy lies in it exactly if the copy has that
many bytes. -/
theorem fatSector_inCopy_iff {g : Geometry} {k off : Nat} :
    g.InCopy k (fatSector g k off) ↔ off < g.fatSize * 512 := by
  unfold Geometry.InCopy fatSector
  rw [Nat.succ_mul]
  omega

/-- Every access of `fat_entry` and `fat_set_entry` to the entry of cluster `c`
is to the copy of the FAT it is meant for.  `fat_entry` reads the first copy.
`fat_set_entry` goes through the copies once for each of its bytes, with one
read and one write in each, so its access number `j` is meant for copy
`j / 2 % fats`. -/
structure InsideFat (g : Geometry) (c : Nat) : Prop where
  reads : ∀ fs : FatFs, ∀ q ∈ accesses (fatEntry g c) () fs, ∃ s, q.sector = some s ∧ g.InCopy 0 s
  writes : ∀ (fs : FatFs) (value j : Nat) (q : SectorOp),
    (accesses (fatSetEntry g c value) () fs)[j]? = some q →
      ∃ s, q.sector = some s ∧ g.InCopy (j / 2 % g.fats) s

section Logs

variable {σ : Type} {g : Geometry} {n : σ} {l : List SectorOp} {ok : FatFs → Prop}

theorem ensures_query (q : SectorOp) (hok : ∀ fs, ok fs → ok (FatFs.handle q fs).2) :
    Ensures (onLog ok) (Proc.query q : FatM σ q.Answer) n l fun r n' l' =>
      ∃ fs, ok fs ∧ r = .ok (FatFs.handle q fs).1 ∧ n' = n ∧ l' = l ++ [q] := by
  intro v hv hd
  exact ⟨hok v.1 hv, v.1, hv, rfl, rfl, congrArg (· ++ [q]) hd⟩

theorem ensures_fatByte (off : Nat) (hok : ∀ fs s, ok fs → ok (readSector fs s).2) :
    Ensures (onLog ok) (fatByte g off : FatM σ (Option UInt8)) n l fun r n' l' =>
      ∃ b, r = .ok b ∧ n' = n ∧ l' = l ++ [.read (fatSector g 0 off)] ∧
        ∃ fs, ok fs ∧ b = (readSector fs (fatSector g 0 off)).1.map fun s => s (off % 512) := by
  have hsec : g.fatStart + off / 512 = fatSector g 0 off := by simp [fatSector]
  unfold fatByte
  rw [hsec]
  refine .bind ((ensures_query (.read _) fun fs h => hok fs _ h).mono ?_)
  rintro r n' l' ⟨fs, hfs, rfl, rfl, rfl⟩
  exact .pure ⟨_, rfl, rfl, rfl, fs, hfs, rfl⟩

theorem ensures_fatEntry_log (c : Nat) (hok : ∀ fs s, ok fs → ok (readSector fs s).2) :
    Ensures (onLog ok) (fatEntry g c : FatM σ Nat) n l fun r n' l' =>
      n' = n ∧ l' = l ++ [.read (fatSector g 0 (entryOffset g c)),
          .read (fatSector g 0 (entryOffset g c + 1))] ∧
        ∃ fs fs', ok fs ∧ ok fs' ∧
          r = match (readSector fs (fatSector g 0 (entryOffset g c))).1,
              (readSector fs' (fatSector g 0 (entryOffset g c + 1))).1 with
            | some lo, some hi => .ok (decodeEntry g c (lo (entryOffset g c % 512))
                (hi ((entryOffset g c + 1) % 512)))
            | _, _ => .error (.rc .eio) := by
  refine .seq (ensures_fatByte _ hok) ?_
  rintro lo n' l' ⟨rfl, rfl, fs, hfs, rfl⟩
  refine .seq (ensures_fatByte _ hok) ?_
  rintro hi n' l' ⟨rfl, rfl, fs', hfs', rfl⟩
  cases hlo : (readSector fs (fatSector g 0 (entryOffset g c))).1 with
  | none =>
    refine .throw ⟨rfl, by simp, fs, fs', hfs, hfs', ?_⟩
    rw [hlo]
  | some lo =>
    cases hhi : (readSector fs' (fatSector g 0 (entryOffset g c + 1))).1 with
    | none =>
      refine .throw ⟨rfl, by simp, fs, fs', hfs, hfs', ?_⟩
      rw [hlo, hhi]
    | some hi =>
      refine .pure ⟨rfl, by simp, fs, fs', hfs, hfs', ?_⟩
      rw [hlo, hhi]

theorem ensures_readSector_log (s : Nat) (hok : ∀ fs s, ok fs → ok (readSector fs s).2) :
    Ensures (onLog ok) (FatM.readSector s : FatM σ Buf) n l fun r n' l' =>
      n' = n ∧ l' = l ++ [.read s] ∧
        ∃ fs, ok fs ∧ r = match (readSector fs s).1 with
          | some b => .ok b
          | none => .error (.rc .eio) := by
  refine .bind ((ensures_query (.read s) fun fs h => hok fs _ h).mono ?_)
  rintro r n' l' ⟨fs, hfs, rfl, rfl, rfl⟩
  simp only [FatFs.handle]
  cases hb : (readSector fs s).1 with
  | none => exact .throw ⟨rfl, rfl, fs, hfs, by rw [hb]⟩
  | some b => exact .pure ⟨rfl, rfl, fs, hfs, by rw [hb]⟩

theorem ensures_writeSector_log (s : Nat) (data : Buf) :
    Ensures (onLog fun _ => True) (FatM.writeSector s data : FatM σ Unit) n l fun _ n' l' =>
      n' = n ∧ l' = l ++ [.write s data] := by
  refine .bind ((ensures_query (.write s data) fun _ h => h).mono ?_)
  rintro r n' l' ⟨fs, -, rfl, rfl, rfl⟩
  simp only [FatFs.handle]
  cases (writeSector fs s data).1 with
  | none => exact .pure ⟨rfl, rfl⟩
  | some e => exact .throw ⟨rfl, rfl⟩

/-- A log of turns over the copies from `copy` on: each access is to byte `off`
of the copy of its turn. -/
def CopyTurns (g : Geometry) (off copy : Nat) (l : List SectorOp) : Prop :=
  ∀ (j : Nat) (q : SectorOp), l[j]? = some q → q.sector = some (fatSector g (copy + j / 2) off)

theorem CopyTurns.nil (off copy : Nat) : CopyTurns g off copy [] := fun j q h => by simp at h

theorem CopyTurns.read (off copy : Nat) : CopyTurns g off copy [.read (fatSector g copy off)] := by
  intro j q h
  obtain ⟨hj, rfl⟩ := List.getElem?_eq_some_iff.mp h
  have hj0 : j = 0 := by simpa using hj
  subst hj0
  rfl

theorem CopyTurns.cons {off copy : Nat} {t : List SectorOp} (data : Buf)
    (h : CopyTurns g off (copy + 1) t) : CopyTurns g off copy
      (.read (fatSector g copy off) :: .write (fatSector g copy off) data :: t) := by
  intro j q hq
  match j with
  | 0 =>
    cases hq
    rfl
  | 1 =>
    cases hq
    rfl
  | j + 2 =>
    have hsec := h j q hq
    rw [hsec]
    congr 2
    omega

/-- `fat_patch_byte` takes one turn for each copy, unless a transfer fails. -/
theorem ensures_fatPatchByteFrom_log (off : Nat) (mask set : UInt8) (left : Nat) :
    ∀ (copy : Nat) (l : List SectorOp),
      Ensures (onLog fun _ => True) (fatPatchByteFrom g off mask set left copy : FatM σ Unit) n l
        fun r n' l' => n' = n ∧ ∃ t, l' = l ++ t ∧ CopyTurns g off copy t ∧ t.length ≤ 2 * left ∧
          (r = .ok () → t.length = 2 * left) := by
  induction left with
  | zero =>
    intro copy l
    exact .pure ⟨rfl, [], by simp, .nil off copy, by simp, fun _ => rfl⟩
  | succ left ih =>
    intro copy l
    refine .bind ((ensures_readSector_log _ fun _ _ _ => trivial).mono ?_)
    rintro r n' l' ⟨rfl, rfl, -⟩
    cases r with
    | error e =>
      exact ⟨rfl, [_], rfl, .read off copy, by simp only [length_singleton]; omega,
        fun h => nomatch h⟩
    | ok b =>
      simp only
      generalize setByte b (off % 512) (b (off % 512) &&& mask ||| set) = data
      refine .bind ((ensures_writeSector_log _ data).mono ?_)
      rintro r n'' l'' ⟨rfl, rfl⟩
      cases r with
      | error e =>
        refine ⟨rfl, _, append_assoc _ _ _, (CopyTurns.nil off _).cons data, ?_, fun h => nomatch h⟩
        show 2 ≤ 2 * (left + 1)
        omega
      | ok u =>
        refine (ih (copy + 1) _).mono ?_
        rintro r n1 l1 ⟨rfl, t, rfl, ht, hlen, hfull⟩
        refine ⟨rfl, _, by rw [append_assoc, append_assoc]; rfl, ht.cons data, ?_, fun hr => ?_⟩
        · simp only [length_cons]
          omega
        · have := hfull hr
          simp only [length_cons]
          omega

/-- `fat_set_entry` goes through the copies for one byte, and then for the next. -/
theorem ensures_patches_log (off : Nat) (m1 s1 m2 s2 : UInt8) : Ensures (onLog fun _ => True)
      (do fatPatchByte g off m1 s1; fatPatchByte g (off + 1) m2 s2 : FatM σ Unit) n l
        fun _ _ l' => ∃ t t', l' = l ++ (t ++ t') ∧ CopyTurns g off 0 t ∧
          CopyTurns g (off + 1) 0 t' ∧ t.length ≤ 2 * g.fats ∧ t'.length ≤ 2 * g.fats ∧
          (t' ≠ [] → t.length = 2 * g.fats) := by
  refine .bind ((ensures_fatPatchByteFrom_log off m1 s1 g.fats 0 l).mono ?_)
  rintro r n' l' ⟨rfl, t, rfl, ht, hlen, hfull⟩
  cases r with
  | error e =>
    exact ⟨t, [], by simp, ht, .nil _ _, hlen, by simp, fun h => absurd rfl h⟩
  | ok u =>
    refine (ensures_fatPatchByteFrom_log (off + 1) m2 s2 g.fats 0 _).mono ?_
    rintro r n'' l'' ⟨rfl, t', rfl, ht', hlen', -⟩
    exact ⟨t, t', by simp, ht, ht', hlen, hlen', fun _ => hfull rfl⟩

theorem ensures_fatSetEntry_log (c value : Nat) :
    Ensures (onLog fun _ => True) (fatSetEntry g c value : FatM σ Unit) n l
        fun _ _ l' => ∃ t t', l' = l ++ (t ++ t') ∧ CopyTurns g (entryOffset g c) 0 t ∧
          CopyTurns g (entryOffset g c + 1) 0 t' ∧ t.length ≤ 2 * g.fats ∧
          t'.length ≤ 2 * g.fats ∧ (t' ≠ [] → t.length = 2 * g.fats) := by
  unfold fatSetEntry
  split
  · exact ensures_patches_log _ _ _ _ _
  · split
    · exact ensures_patches_log _ _ _ _ _
    · exact ensures_patches_log _ _ _ _ _

end Logs

/-- The entry of a cluster is accessed inside the FAT exactly if it ends there. -/
theorem insideFat_iff {g : Geometry} (c : Nat) :
    InsideFat g c ↔ entryOffset g c + 2 ≤ g.fatSize * 512 := by
  have hread : ∀ fs, accesses (fatEntry g c) () fs = [.read (fatSector g 0 (entryOffset g c)),
      .read (fatSector g 0 (entryOffset g c + 1))] := fun fs =>
    (ensures_fatEntry_log (g := g) c (fun _ _ _ => trivial : ∀ fs s, True → _) (fs, []) trivial
      rfl).2.2.1
  constructor
  · intro h
    obtain ⟨s, hs, hin⟩ := h.reads ⟨g, ⟨false, 0, fun _ _ => 0, 0, fun _ => false, false, fun _ => false⟩,
      0, 0, false, fun _ => 0⟩ (.read (fatSector g 0 (entryOffset g c + 1))) (by simp [hread])
    cases hs
    have := fatSector_inCopy_iff.mp hin
    omega
  · intro h
    refine ⟨fun fs q hq => ?_, fun fs value j q hq => ?_⟩
    · rw [hread, mem_pair] at hq
      rcases hq with rfl | rfl
      all_goals exact ⟨_, rfl, fatSector_inCopy_iff.mpr (by omega)⟩
    · obtain ⟨t, t', hl, ht, ht', hlen, hlen', hfull⟩ :=
        (ensures_fatSetEntry_log (g := g) c value (fs, []) trivial rfl).2
      have hq' : (t ++ t')[j]? = some q := by
        have hacc : accesses (fatSetEntry g c value) () fs = t ++ t' := hl
        rw [← hacc]
        exact hq
      rcases lt_or_ge j t.length with hj | hj
      · -- the turns for the low byte
        rw [getElem?_append_left hj] at hq'
        have hsec := ht j q hq'
        rw [Nat.mod_eq_of_lt (by omega)]
        rw [zero_add] at hsec
        exact ⟨_, hsec, fatSector_inCopy_iff.mpr (by omega)⟩
      · -- the turns for the high byte come after a whole round
        rw [getElem?_append_right hj] at hq'
        have hlt := (List.getElem?_eq_some_iff.mp hq').1
        have hround := hfull (ne_nil_of_length_pos (by omega))
        have hsec := ht' _ q hq'
        have hturn : j / 2 % g.fats = (j - t.length) / 2 := by
          rw [hround, show j / 2 = (j - 2 * g.fats) / 2 + g.fats by omega, Nat.add_mod_right,
            Nat.mod_eq_of_lt (by omega)]
        rw [hturn]
        rw [zero_add] at hsec
        exact ⟨_, hsec, fatSector_inCopy_iff.mpr (by omega)⟩

/-- On a volume `fat_mount` accepts, `fat_entry` and `fat_set_entry` stay inside
the FAT for every cluster if and only if the FAT is large enough to hold an entry
for every cluster.  The mount does not check that. -/
theorem fat_inside_iff {mem : Nat → Bool} {dev : Device} {fs : FatFs} {root : FatNode}
    (h : fatMount mem dev = .ok (fs, root)) :
    (∀ c, validCluster fs.toGeometry c = true → InsideFat fs.toGeometry c) ↔
      fs.HoldsClusters := by
  have hpos := fatMount_fatSize_pos h
  constructor
  · intro hall
    rcases Nat.eq_zero_or_pos fs.clusterCount with h0 | h0
    · -- no cluster at all: the two reserved entries fit any FAT
      unfold Geometry.HoldsClusters entryOffset
      split <;> omega
    · exact (insideFat_iff _).mp (hall _ (validCluster_iff.mpr ⟨by omega, by omega⟩))
  · intro hb c hc
    exact (insideFat_iff c).mpr (entryOffset_lt hb (validCluster_lt hc))

/-- The floppy's FAT holds its ten clusters. -/
theorem fat_inside_floppy : floppyFs.HoldsClusters ∧
    ∀ c, validCluster floppyFs.toGeometry c = true → InsideFat floppyFs.toGeometry c := by
  have hholds : floppyFs.HoldsClusters := by
    unfold Geometry.HoldsClusters
    decide
  exact ⟨hholds, (fat_inside_iff fatMount_floppy).mpr hholds⟩

/-! ### A FAT of one sector for five thousand clusters -/

/-- The floppy's layout with 5005 sectors.  The FAT has room for 256 entries. -/
def shortFat : Device where
  isBlock := true
  blockSize := 512
  blocks := fun
    | 0, 19 => 0x8D
    | 0, 20 => 0x13
    | s, i => floppyBlocks s i
  blockCount := 5005
  readFails := fun _ => false
  canWrite := true
  writeFails := fun _ => false

def shortFatFs : FatFs where
  toGeometry := { floppyGeometry with fat12 := false, clusterCount := 5001 }
  dev := shortFat
  hint := 2
  cachedSector := 0
  cacheValid := false
  cache := fun _ => 0

theorem fatMount_shortFat : fatMount (fun _ => true) shortFat = .ok (shortFatFs, dirAt true 0) := by
  have hgeo : (BootSector.parse (shortFat.blocks 0)).geometry shortFat =
      .ok shortFatFs.toGeometry := by
    decide +kernel
  have hread : deviceReadBlocks shortFat 0 = some (shortFat.blocks 0) := rfl
  unfold fatMount
  rw [hread]
  simp only [hgeo]
  rfl

/-- Setting the entry of cluster 512 writes sector 3, which is the root
directory, and sector 4, which is cluster 2. -/
theorem fatSetEntry_shortFat : fatMount (fun _ => true) shortFat = .ok (shortFatFs, dirAt true 0) ∧
      validCluster shortFatFs.toGeometry 512 = true ∧
      (accesses (fatSetEntry shortFatFs.toGeometry 512 0) () shortFatFs).map SectorOp.sector =
        [some 3, some 3, some 4, some 4, some 3, some 3, some 4, some 4] ∧
      shortFatFs.rootStart = 3 ∧ shortFatFs.dataStart = 4 ∧
      ¬ InsideFat shortFatFs.toGeometry 512 := by
  refine ⟨fatMount_shortFat, by decide, by decide, rfl, rfl, fun h => ?_⟩
  exact absurd ((insideFat_iff 512).mp h) (by decide)

end ManiOS.Fat
