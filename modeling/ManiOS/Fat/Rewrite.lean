import ManiOS.Fat.Files

/-!
# What a call on a file changes

`fat_write` and `fat_truncate` both end with a file that has another chain and
another size in its entry.  `Rewritten` is what they have in common.  From it
follow the change of the tree (`Rewritten.update`) and the frame: everything
but the file's own slot, its own clusters and clusters that were free is what
it was (`Rewritten.only`).
-/

namespace ManiOS.Fat

open ManiOS.Lib

/-- The file whose entry is in slot `i` of `s` has the chain `l'` and the size
`size` in `d'`, and had the chain `l` in `d`. -/
structure Rewritten (g : Geometry) (d : Disk) (s : Place) (i : Nat) (l : List Nat) (size : Nat)
    (d' : Disk) (l' : List Nat) : Prop where
  touches : Touches s (l ++ l') d d'
  slots : ∀ j < s.slots g, d'.slot g s j =
    if j = i then entryWith (d.slot g s i) (l'.headD 0) size else d.slot g s j
  chain : d'.IsChain g l'
  freed : ∀ c ∈ l, c ∉ l' → d'.next c = 0
  taken : ∀ c ∈ l', c ∉ l → d.next c = 0

/-- Nothing changed but the entry of slot `i` of directory `p`, which is a
file's, the clusters of the file, which are `l`, and clusters that were free. -/
structure OnlyFile (g : Geometry) (p : Option Nat) (i : Nat) (l : List Nat) (d d' : Disk) :
    Prop where
  /-- Every other slot of every directory is the same, and of this one the name. -/
  slots : ∀ q s, (d.tree g).IsDir q → Stored g d q s → Stored g d' q s ∧
    ∀ j < s.slots g, ((q, j) ≠ (p, i) → d'.slot g s j = d.slot g s j) ∧
      ∀ k < 26, d'.slot g s j k = d.slot g s j k
  /-- Every cluster in use that is not the file's keeps its place in its chain,
  and its bytes if it is no directory's. -/
  clusters : ∀ c, c ∉ l → d.next c ≠ 0 → d'.next c = d.next c ∧
    ((∀ q lq, (d.tree g).IsDir q → Stored g d q (.clusters lq) → c ∉ lq) → d'.data c = d.data c)
  /-- Every other file has its entry, its chain and its contents. -/
  files : ∀ q j x lx, (d.tree g).Holds g q j x lx → (q, j) ≠ (p, i) →
    (d'.tree g).Holds g q j x lx ∧ (x.dir = false → ∀ o < (Place.clusters lx).size g,
      d'.byteAt g (.clusters lx) o = d.byteAt g (.clusters lx) o)

section Rewriting

variable {g : Geometry} {d d' : Disk} {p : Option Nat} {s : Place} {i size : Nat} {e : Entry}
  {l l' : List Nat} (hg : g.Fat16) (hf : FileAt g d p s i e l)
include hg hf

theorem Wrote.rewritten {off k : Nat} {buf : Buf} (h : Wrote g d s i l off buf size k d' l') :
    Rewritten g d s i l size d' l' where
  touches := {
    root := fun hs => by
      rw [h.bytes.root]
      cases s with
      | root => exact absurd rfl hs
      | clusters ls => rfl
    next := fun c hc => h.same c fun h' => hc (List.mem_append_right l h')
    data := fun c hc hcs => by
      rw [h.bytes.data, Disk.put_data_outside _ fun h' => hc (List.mem_append_right l h')]
      exact (Within.put s d _ _ _).data c hcs }
  slots j hj := h.slot hg hf hj
  chain := h.chain
  freed c hc hn := by
    obtain ⟨ex, rfl⟩ := h.grown
    exact absurd (List.mem_append_left ex hc) hn
  taken := h.fresh

theorem Cut.rewritten (h : Cut g d s i l size d' l') :
    Rewritten g d s i l size d' l' := { h with
  touches := {
    root := fun hs => by
      rw [h.bytes.root]
      cases s with
      | root => exact absurd rfl hs
      | clusters ls => rfl
    next := fun c hc => h.same c fun h' => hc (List.mem_append_left l' h')
    data := fun c hc hcs => by
      rw [h.bytes.data]
      exact (Within.put s d _ _ _).data c hcs }
  slots j hj := by
    rw [h.bytes.slot, slot_put (hf.stored.nodup hg) (bpc_pos hg.toUsable) _ hj, ← entryWith_clip,
      clip_slot]
  taken c hc hn := absurd (h.kept.subset hc) hn }

theorem Rewritten.update (h : Rewritten g d s i l size d' l') (hsize : size < 4294967296) :
    Stored g d' p s ∧ (d.tree g).Update g (d'.tree g) p i (some e)
      (some { e with first := l'.headD 0, size := size }) l l' [] [] := by
  obtain ⟨hi, hused, hn, he⟩ := hf.slot hg
  have hfirst : l'.headD 0 < 65536 := by
    cases l' with
    | nil => exact Nat.zero_lt_succ _
    | cons c t => exact valid_lt_65536 hg (h.chain.cells c List.mem_cons_self)
  refine update_file hg hf.sound hf.stored hf.holds hf.file hf.file h.touches (fun j => ?_) h.chain
    rfl h.freed h.taken
  have hname := named_entryWith (d.slot g s i) hfirst hsize hn
  rw [he] at hname
  rw [← hname]
  refine entryAt_of_listedAt (listedAt_set hi hused ?_ ((h.slots i hi).trans (if_pos rfl))
    (fun k hk hki => (h.slots k hk).trans (if_neg hki)) j)
  exact hused i le_rfl

omit hg hf in
theorem Rewritten.not_mem {c : Nat} (h : Rewritten g d s i l size d' l') (hc : c ∉ l)
    (hused : d.next c ≠ 0) : c ∉ l ++ l' := by
  rw [List.mem_append]
  rintro (hcl | hcl)
  · exact hc hcl
  · exact hused (h.taken c hcl hc)

theorem Rewritten.only (h : Rewritten g d s i l size d' l') (hsize : size < 4294967296) :
    OnlyFile g p i l d d' := by
  obtain ⟨hsp', u⟩ := h.update hg hf hsize
  refine ⟨fun q sq hq hsq => ?_, fun c hc hused => ?_, fun q j x lx hh hne => ?_⟩
  · by_cases hqp : q = p
    · subst hqp
      obtain rfl : s = sq := (hf.stored.place_eq hg).symm.trans (hsq.place_eq hg)
      refine ⟨hsp', fun j hj => ⟨fun hne => ?_, fun k hk => ?_⟩⟩
      · rw [h.slots j hj, if_neg fun hji => hne (by rw [hji])]
      · rw [h.slots j hj]
        split
        next hji => rw [hji, entryWith_outside _ (.inl hk)]
        next => rfl
    · have hplace := h.touches.place_other hg hf.sound hf.holds.dir hf.stored hq hsq hqp
        fun lq hl c hc => h.not_mem
          (hf.dir_apart hg (fun _ ha hn => absurd ha hn) hq (hl ▸ hsq) hc)
          (hf.sound.dir_cluster hg hq (hl ▸ hsq) hc).1
      exact ⟨hplace.stored hsq, fun j hj => ⟨fun _ => hplace.slot hj, fun k _ => by
        rw [hplace.slot hj]⟩⟩
  · have hout := h.not_mem hc hused
    refine ⟨h.touches.next c hout, fun hdir => h.touches.data c hout ?_⟩
    rintro ls rfl
    exact hdir p ls hf.holds.dir hf.stored
  · refine ⟨u.holds_new hf.sound hh hne, fun hfile o ho => ?_⟩
    refine byteAt_clusters_congr (fun c hc => h.touches.data c (h.not_mem ?_ ?_) ?_) ho
    · exact fun hcl => hf.sound.disjoint _ _ _ _ _ _ _ _ hh hf.holds hne hc hcl
    · exact (Disk.IsChain.next_used hh.chain hc)
    · rintro ls rfl hcs
      exact hf.sound.dir_apart hg hh hf.holds.dir hf.stored
        (fun hd => absurd hd (by simp [hfile])) hcs hc

theorem Wrote.byteAt {off k o : Nat} {buf : Buf} (h : Wrote g d s i l off buf size k d' l')
    (ho : o < (Place.clusters l').size g) :
    d'.byteAt g (.clusters l') o =
      if off ≤ o ∧ o < off + k then buf (o - off) else d.byteAt g (.clusters l') o := by
  have hnd : ∀ x, Place.clusters l' = .clusters x → x.Nodup := by
    rintro x ⟨⟩
    exact Disk.IsChain.nodup hg h.chain
  have hb : d'.byteAt g (.clusters l') o = _ := congrFun (congrFun h.bytes.data _) _
  rw [hb]
  refine (byteAt_put hnd (bpc_pos hg.toUsable) ho).trans ?_
  split
  · rfl
  · refine byteAt_clusters_congr (fun c hc => ?_) ho
    exact (Within.put s d _ _ _).data c fun ls hls hcs => h.apart hg hf ls hls hcs hc

end Rewriting

end ManiOS.Fat
