import ManiOS.Fat.Scan

/-!
# Placing entries

`entry_slot` finds a slot for a new entry, and `entry_place` writes it there.
A directory that is full goes on in another cluster, which is cleared before it
is linked, so that the new slots say nothing (`grown_entryAt`).  `new_directory`
fills the first cluster of a directory, and `dir_is_empty` looks for names in
one.
-/

namespace ManiOS.Fat

open ManiOS.Lib List

section Entries

variable {g : Geometry} {agree : Prop} {d d1 d' : Disk} {n : FatNode} {s s1 : Place} {l : List Nat}
  {i : Nat} {c : Nat} {atEnd : Bool} {dir : Prop}

/-- A slot for a new entry: a deleted one, or the end of the directory. -/
def FreeSlot (g : Geometry) (d : Disk) (s : Place) (i : Nat) : Bool → Prop
  | false => i < s.slots g ∧ (∀ j ≤ i, d.slot g s j 0 ≠ entryEnd) ∧ d.slot g s i 0 = entryDeleted
  | true => (∀ j < i, d.slot g s j 0 ≠ entryEnd) ∧
      ((i < s.slots g ∧ d.slot g s i 0 = entryEnd) ∨
        (i = s.slots g ∧ s ≠ .root ∧ ∀ j < i, d.slot g s j 0 ≠ entryDeleted))

theorem FreeSlot.listedAt (h : FreeSlot g d s i atEnd) :
    listedAt (s.slots g) (d.slot g s) i = none := by
  cases atEnd with
  | false => rw [listedAt_of_used h.1 h.2.1, listed_deleted h.2.2]
  | true =>
    rcases h.2 with ⟨-, hend⟩ | ⟨rfl, -⟩
    · exact listedAt_of_end ⟨i, Nat.le_refl _, hend⟩
    · exact listedAt_of_ge (Nat.le_refl _)

theorem FreeSlot.entryAt (h : FreeSlot g d s i atEnd) :
    entryAt (s.slots g) (d.slot g s) i = none := by
  rw [entryAt_eq_bind, h.listedAt]
  rfl

variable (hg : g.Usable)
include hg

theorem ensures_entrySlotFrom (left : Nat) :
    ∀ (i : Nat) (n : FatNode), NodeAt g d n s → i ≤ s.slots g → s.slots g < left + i →
      (∀ j < i, d.slot g s j 0 ≠ entryEnd ∧ d.slot g s j 0 ≠ entryDeleted) →
      Does g agree (entrySlotFrom g left (32 * i)) n d (Scanned g d n s fun r =>
        (∃ k atEnd, r = .ok (32 * k, atEnd) ∧ FreeSlot g d s k atEnd) ∨
          r = .error (.rc .enospc)) := by
  induction left with
  | zero =>
    intro i n _ hi hleft
    omega
  | succ left ih =>
    intro i n h hi hleft hused
    rcases Nat.lt_or_eq_of_le hi with hlt | rfl
    · refine .bind (.tryCatch ((ensures_readSlot hg h hlt).mono ?_))
      rintro r n' d' ⟨rfl, rfl, hm, hat⟩
      show Does g agree (if 32 < 32 then _ else _) n' d' _
      by_cases hdel : d'.slot g s i 0 = entryDeleted
      · rw [if_pos hdel]
        refine .pure ⟨rfl, hm, hat, .inl ⟨i, false, rfl, hlt, fun j hj => ?_, hdel⟩⟩
        rcases Nat.lt_or_eq_of_le hj with hlt' | rfl
        · exact (hused j hlt').1
        · rw [hdel]
          decide
      · rw [if_neg hdel]
        by_cases hend : d'.slot g s i 0 = entryEnd
        · rw [if_pos hend]
          exact .pure
            ⟨rfl, hm, hat, .inl ⟨i, true, rfl, fun j hj => (hused j hj).1, .inl ⟨hlt, hend⟩⟩⟩
        · rw [if_neg hend, u32_next hg h hlt]
          refine hm.scan (ih (i + 1) n' hat hlt (by omega) fun j hj => ?_)
          rcases Nat.lt_succ_iff_lt_or_eq.mp hj with hlt' | rfl
          · exact hused j hlt'
          · exact ⟨hend, hdel⟩
    · refine .bind (.tryCatch ((ensures_readSlot_end hg h).mono ?_))
      rintro r n' d' ⟨rfl, rfl, hm, hat⟩
      show Does g agree (if 0 < 32 then _ else _) n' d' _
      refine .get_bind ?_
      cases s with
      | root =>
        have hroot : n'.fixedRoot = true := hat
        rw [if_pos hroot]
        exact .throw ⟨rfl, hm, hat, .inr rfl⟩
      | clusters l =>
        have hnot : ¬ n'.fixedRoot = true := by
          rw [OnChain.notRoot hat]
          decide
        rw [if_neg hnot]
        exact .pure ⟨rfl, hm, hat, .inl ⟨_, true, rfl, fun j hj => (hused j hj).1,
          .inr ⟨rfl, by simp, fun j hj => (hused j hj).2⟩⟩⟩

/-- `entry_slot`: a free slot, or `-ENOSPC` in a full root. -/
theorem ensures_entrySlot (h : NodeAt g d n s) :
    Does g agree (entrySlot g) n d <| Scanned g d n s fun r =>
      (∃ k atEnd, r = .ok (32 * k, atEnd) ∧ FreeSlot g d s k atEnd) ∨
        r = .error (.rc .enospc) := by
  have hslots := h.slots_lt hg
  exact ensures_entrySlotFrom hg slotTurns 0 n h (Nat.zero_le _) (by unfold slotTurns; omega)
    fun j hj => absurd hj (Nat.not_lt_zero j)

theorem ensures_dirIsEmptyFrom (left : Nat) :
    ∀ (i : Nat) (n : FatNode), NodeAt g d n s → i ≤ s.slots g → s.slots g < left + i →
      (∀ j < i, d.slot g s j 0 ≠ entryEnd ∧ named (d.slot g s j) = none) →
      Does g agree (dirIsEmptyFrom g left (32 * i)) n d fun r _ d' =>
        d' = d ∧ ((r = .ok () ∧ ∀ j, entryAt (s.slots g) (d.slot g s) j = none) ∨
          r = .error (.rc .enotempty)) := by
  induction left with
  | zero =>
    intro i n _ hi hleft
    omega
  | succ left ih =>
    intro i n h hi hleft hall
    -- what was seen says nothing, and the row ends here
    have hnone : i = s.slots g ∨ d.slot g s i 0 = entryEnd →
        ∀ j, entryAt (s.slots g) (d.slot g s) j = none := by
      intro hend j
      rcases lt_or_ge j i with hj | hj
      · rw [entryAt_of_used (by omega) fun k hk => (hall k (by omega)).1]
        exact (hall j hj).2
      · rcases hend with rfl | hend
        · exact entryAt_of_ge hj
        · exact entryAt_of_end ⟨i, hj, hend⟩
    rcases Nat.lt_or_eq_of_le hi with hlt | heq
    · refine .bind (.tryCatch ((ensures_readSlot hg h hlt).mono ?_))
      rintro r n' d' ⟨rfl, rfl, hm, hat⟩
      show Does g agree (if 32 < 32 ∨ d'.slot g s i 0 = entryEnd then _ else _) n' d' _
      by_cases hend : d'.slot g s i 0 = entryEnd
      · rw [if_pos (.inr hend)]
        exact .pure ⟨rfl, .inl ⟨rfl, hnone (.inr hend)⟩⟩
      · have hrest : named (d'.slot g s i) = none →
            Does g agree (dirIsEmptyFrom g left (u32 (32 * i + 32))) n' d'
              fun r _ d'' => d'' = d' ∧
                ((r = .ok () ∧ ∀ j, entryAt (s.slots g) (d'.slot g s) j = none) ∨
                  r = .error (.rc .enotempty)) := by
          intro hnamed
          rw [u32_next hg h hlt]
          refine ih (i + 1) n' hat hlt (by omega) fun j hj => ?_
          rcases Nat.lt_succ_iff_lt_or_eq.mp hj with hlt' | rfl
          · exact hall j hlt'
          · exact ⟨hend, hnamed⟩
        rw [if_neg (by simp [hend])]
        by_cases hlist : isListed (d'.slot g s i) = true
        · simp only [hlist, Bool.not_true, Bool.false_eq_true, if_false]
          by_cases hdot : isDot (d'.slot g s i) = true
          · rw [if_pos hdot]
            refine hrest ?_
            unfold named isNamed
            rw [hdot]
            simp
          · rw [if_neg hdot]
            exact .throw ⟨rfl, .inr rfl⟩
        · simp only [hlist, Bool.not_false, if_true]
          refine hrest ?_
          unfold named isNamed
          simp [hlist]
    · subst heq
      refine .bind (.tryCatch ((ensures_readSlot_end hg h).mono ?_))
      rintro r n' d' ⟨rfl, rfl, hm, hat⟩
      exact .pure ⟨rfl, .inl ⟨rfl, hnone (.inl rfl)⟩⟩

theorem ensures_dirIsEmpty (h : NodeAt g d n s) :
    Does g agree (dirIsEmpty g) n d fun r _ d' =>
      d' = d ∧ ((r = .ok () ∧ ∀ j, entryAt (s.slots g) (d.slot g s) j = none) ∨
        r = .error (.rc .enotempty)) := by
  have hslots := h.slots_lt hg
  exact ensures_dirIsEmptyFrom hg slotTurns 0 n h (Nat.zero_le _) (by unfold slotTurns; omega)
    fun j hj => absurd hj (Nat.not_lt_zero j)

/-! ## Growing a directory -/

/-- A directory with one more cluster, or as it was. -/
inductive Grows (g : Geometry) (d : Disk) : Place → Disk → Place → Prop
  | stay (s : Place) : Grows g d s d s
  | more {l : List Nat} {c : Nat} {d1 : Disk}
      (h : Extends g True d d1 l (l ++ [c])) (hne : l ≠ []) :
      Grows g d (.clusters l) d1 (.clusters (l ++ [c]))

omit hg in
theorem OnChain.extend {l' : List Nat} [Decidable dir] (h : OnChain g d n l)
    (hne : l ≠ []) (hext : Extends g dir d d1 l l') : OnChain g d1 n l' := by
  refine ⟨h.notRoot, hext.chain, h.first.trans (hext.headD hne).symm, ?_⟩
  obtain ⟨ex, rfl⟩ := hext.grown
  refine h.cursor.imp_right fun hc => ?_
  rw [getElem?_append_left (List.getElem?_eq_some_iff.mp hc).1]
  exact hc

theorem Extends.free_last [Decidable dir] (hext : Extends g dir d d1 l (l ++ [c])) : d.next c = 0 := by
  have hnd := Disk.IsChain.nodup hg hext.chain
  rw [nodup_append] at hnd
  exact hext.fresh c (by simp) fun hm => hnd.2.2 c hm c mem_cons_self rfl

omit hg in
theorem Extends.slot_same {l' : List Nat} [Decidable dir]
    (hext : Extends g dir d d1 l l') (hi : i < (Place.clusters l).slots g) :
    d1.slot g (.clusters l') i = d.slot g (.clusters l) i := by
  obtain ⟨ex, rfl⟩ := hext.grown
  funext j
  unfold Disk.slot
  by_cases hj : j < 32
  · have hidx := div_lt_of_lt_size (slot_in hi hj)
    rw [if_pos hj, if_pos hj]
    show d1.data _ _ = d.data _ _
    rw [hext.data, getD_append _ _ _ _ hidx, if_neg]
    rintro ⟨-, -, hnot, -⟩
    rw [getD_eq_getElem _ _ hidx] at hnot
    exact hnot (getElem_mem hidx)
  · rw [if_neg hj, if_neg hj]

open Place (clusters size_eq)

theorem slots_append (l ex : List Nat) : (Place.clusters (l ++ ex)).slots g =
      (Place.clusters l).slots g + ex.length * (g.bytesPerCluster / 32) := by
  have h32 : 32 * (g.bytesPerCluster / 32) = g.bytesPerCluster := by
    have := hg.bpc_eq
    omega
  have hsize : (clusters (l ++ ex)).size g =
      (clusters l).size g + 32 * (ex.length * (g.bytesPerCluster / 32)) := by
    show (l ++ ex).length * g.bytesPerCluster = l.length * g.bytesPerCluster + _
    rw [length_append, add_mul, mul_left_comm, h32]
  rw [size_eq hg, size_eq hg] at hsize
  omega

theorem grown_listedAt (hext : Extends g True d d1 l (l ++ [c])) (j : Nat) :
    listedAt ((Place.clusters (l ++ [c])).slots g) (d1.slot g (.clusters (l ++ [c]))) j =
      listedAt ((Place.clusters l).slots g) (d.slot g (.clusters l)) j := by
  have hpos := bpc_pos hg
  have hslots := slots_append hg l [c]
  rcases lt_or_ge j ((clusters l).slots g) with hj | hj
  · unfold listedAt
    have hiff : (∀ k ≤ j, d1.slot g (.clusters (l ++ [c])) k 0 ≠ entryEnd) ↔
        ∀ k ≤ j, d.slot g (.clusters l) k 0 ≠ entryEnd :=
      forall_congr' fun k => imp_congr_right fun hk => by
        rw [hext.slot_same (by omega)]
    rw [hext.slot_same hj]
    simp only [hiff, hj, show j < (clusters (l ++ [c])).slots g by omega]
  · -- the first new slot is an end marker
    rw [listedAt_of_ge hj]
    refine listedAt_of_end ⟨(clusters l).slots g, hj, ?_⟩
    have hnd := Disk.IsChain.nodup hg hext.chain
    have hc : c ∉ l := by
      rw [nodup_append] at hnd
      exact fun hm => hnd.2.2 c hm c mem_cons_self rfl
    have hoff : 32 * (clusters l).slots g + 0 = l.length * g.bytesPerCluster :=
      (size_eq hg (.clusters l)).symm
    show (if 0 < 32 then d1.byteAt g (.clusters (l ++ [c])) (32 * _ + 0) else 0) = 0
    rw [hoff]
    show d1.data ((l ++ [c]).getD (l.length * g.bytesPerCluster / g.bytesPerCluster) 0)
      (l.length * g.bytesPerCluster % g.bytesPerCluster) = 0
    rw [hext.data]
    simp [hc, hpos]

theorem grown_entryAt (hext : Extends g True d d1 l (l ++ [c])) (j : Nat) :
    entryAt ((Place.clusters (l ++ [c])).slots g) (d1.slot g (.clusters (l ++ [c]))) j =
      entryAt ((Place.clusters l).slots g) (d.slot g (.clusters l)) j := by
  rw [entryAt_eq_bind, grown_listedAt hg hext, entryAt_eq_bind]

/-! ## Writing an entry -/

theorem ensures_writeEntry_grow (h : OnChain g d n l) (hne : l ≠ [])
    (hgrow : Growable g d l l.length) (hdir : n.type = .dir) (e : Buf) (err : Errno) :
    Does g agree (writeEntry g (32 * (Place.clusters l).slots g) e err) n d fun r n' d' =>
      n' = n ∧ ((r = .ok () ∧ ∃ c d1, Extends g True d d1 l (l ++ [c]) ∧
          d' = d1.put g (.clusters (l ++ [c])) (32 * (Place.clusters l).slots g) e 32) ∨
        (r = .error (.rc err) ∧ d' = d)) := by
  have hpos := bpc_pos hg
  have hsize : 32 * (clusters l).slots g = l.length * g.bytesPerCluster :=
    (size_eq hg (.clusters l)).symm
  have hidx : 32 * (clusters l).slots g / g.bytesPerCluster = l.length := by
    rw [hsize, Nat.mul_div_cancel _ hpos]
  generalize hoff : 32 * (clusters l).slots g = off at hsize hidx ⊢
  refine .bind (.tryCatch ?_)
  refine ensures_nodeWrite_one hg h.notRoot (by omega) (by omega) ?_
  refine (ensures_clusterForWrite hg h hne (hidx ▸ hgrow) (syncEntry g)).mono ?_
  rw [hidx]
  rintro r n' d1 ⟨rfl, l', hext, hout⟩
  simp only [hdir] at hext
  obtain ⟨ex, rfl⟩ := hext.grown
  rcases hout with ⟨rfl, hlen⟩ | ⟨rfl, -, hlen⟩
  · obtain ⟨c, rfl⟩ : ∃ c, ex = [c] := by
      rw [length_append] at hlen
      exact length_eq_one_iff.mp (by omega)
    have hget : (l ++ [c]).getD l.length 0 = c := by simp
    rw [hget]
    refine ⟨hext.chain.cells c (by simp), .pure ⟨rfl, .inl ⟨rfl, c, d1, hext, ?_⟩⟩⟩
    have hshift : shift e 0 = e := funext fun i => by rw [shift, zero_add]
    have hput : (d1.put g (.clusters (l ++ [c])) off e 0).putData
        ((l ++ [c]).getD ((off + 0) / g.bytesPerCluster) 0) ((off + 0) % g.bytesPerCluster)
        (shift e 0) 32 = d1.put g (.clusters (l ++ [c])) off e (0 + 32) :=
      Disk.put_putData hg (Disk.IsChain.nodup hg hext.chain)
        (by rw [add_zero, hidx]; simp) (by omega)
    rw [add_zero, hidx, hget, Disk.put_zero, hshift] at hput
    exact hput
  · exact .throw ⟨rfl, .inr ⟨rfl, hext.idle (hext.eq_of_length hlen)⟩⟩

/-- What `entry_place` leaves: the directory, perhaps with one more cluster, and
the entry in its slot. -/
structure Placed (g : Geometry) (d : Disk) (s : Place) (i : Nat) (e : Buf) (d1 : Disk) (s1 : Place)
    (d' : Disk) : Prop where
  grows : Grows g d s d1 s1
  next : d'.next = d1.next
  within : Within s1 d1 d'
  lt : i < s1.slots g
  used : ∀ j ≤ i, d'.slot g s1 j 0 ≠ entryEnd
  listed : ∀ j, listedAt (s1.slots g) (d'.slot g s1) j =
    if j = i then listed (clip e) else listedAt (s.slots g) (d.slot g s) j

omit hg in
theorem Placed.entries {e : Buf} (h : Placed g d s i e d1 s1 d') (j : Nat) :
    entryAt (s1.slots g) (d'.slot g s1) j =
      if j = i then named e else entryAt (s.slots g) (d.slot g s) j := by
  rw [entryAt_of_listedAt (h.listed j), named_clip]

theorem two_le_slots_append :
    (Place.clusters l).slots g + 1 < (Place.clusters (l ++ [c])).slots g := by
  have hb : 16 ≤ g.bytesPerCluster / 32 := by
    have := hg.bpc_eq
    have := hg.spc_pos
    omega
  rw [slots_append hg, length_singleton]
  omega

/-- What `entry_place` does after it took the end marker of a directory. -/
theorem ensures_newEnd (h : NodeAt g d' n s1) (hlt : i < s1.slots g)
    {post : Except Stop Unit → FatNode → Disk → Prop}
    (hpost : ∀ n' d'', Moved n n' → NodeAt g d'' n' s1 → d''.next = d'.next → Within s1 d' d'' →
      (∀ j ≤ i, d''.slot g s1 j = d'.slot g s1 j) →
      (i + 1 = s1.slots g ∨ d''.slot g s1 (i + 1) 0 = entryEnd) → post (.ok ()) n' d'') :
    Does g agree (do
      let (next, _) ← tryCatch (nodeRead g (u32 (32 * i + 32)) (fun _ => 0) 32)
        fun _ => throw (.rc .eio)
      if next = 32 then writeEntry g (u32 (32 * i + 32)) (fun _ => 0) .enospc) n d' post := by
  rw [u32_next hg h hlt]
  rcases Nat.lt_or_eq_of_le (show i + 1 ≤ s1.slots g from hlt) with hlt' | heq
  · refine .bind (.tryCatch ((ensures_readSlot hg h hlt').mono ?_))
    rintro r n' d1 ⟨rfl, rfl, hm, hat⟩
    refine (yields_writeEntry hg hat hlt' _ .enospc).post ?_
    refine hpost n' _ hm (hat.of_next (Disk.put_next ..)) (Disk.put_next ..) (.put ..)
      (fun j hj => ?_) (.inr ?_)
    · rw [slot_put (h.nodup hg) (bpc_pos hg) _ (by omega), if_neg (by omega)]
    · rw [slot_put (h.nodup hg) (bpc_pos hg) _ hlt', if_pos rfl]
      rfl
  · rw [heq]
    refine .bind (.tryCatch ((ensures_readSlot_end hg h).mono ?_))
    rintro r n' d1 ⟨rfl, rfl, hm, hat⟩
    exact .pure (hpost n' d1 hm hat rfl (.refl ..) (fun _ _ => rfl) (.inl heq))

/-- `entry_place`: the entry in its slot, or nothing at all. -/
theorem ensures_entryPlace (h : NodeAt g d n s) (hdir : n.type = .dir)
    (hne : s ≠ .clusters []) (hslot : FreeSlot g d s i atEnd)
    (hgrow : ∀ l, s = .clusters l → i = s.slots g → Growable g d l l.length) {e : Buf}
    (he : e 0 ≠ entryEnd) :
    Does g agree (entryPlace g (32 * i) e atEnd) n d fun r n' d' => Moved n n' ∧
      ((r = .ok () ∧ ∃ d1 s1, NodeAt g d' n' s1 ∧ Placed g d s i e d1 s1 d') ∨
        (r = .error (.rc .enospc) ∧ d' = d ∧ NodeAt g d n' s)) := by
  have hclip : clip e 0 ≠ entryEnd := he
  cases atEnd with
  | false =>
    obtain ⟨hlt, hused, -⟩ := hslot
    refine (yields_writeEntry hg h hlt e .enospc).bind (.pure ⟨.refl n, .inl ⟨rfl, d, s,
      h.of_next (Disk.put_next ..), .stay s, Disk.put_next .., .put .., hlt, ?_, ?_⟩⟩)
    · intro j hj
      rw [slot_put (h.nodup hg) (bpc_pos hg) e (by omega)]
      split
      · exact hclip
      · exact hused j hj
    · intro j
      rw [listedAt_set hlt hused hclip
        (by rw [slot_put (h.nodup hg) (bpc_pos hg) e hlt, if_pos rfl])
        (fun k hk hki => by rw [slot_put (h.nodup hg) (bpc_pos hg) e hk, if_neg hki]) j]
  | true =>
    obtain ⟨hused, hend⟩ := hslot
    -- the entry is in its slot of `s1` on `d2`; what is left is the new end marker
    have hrest : ∀ d1 s1, Grows g d s d1 s1 → NodeAt g d1 n s1 → i < s1.slots g →
        (∀ j < i, d1.slot g s1 j = d.slot g s j) →
        Does g agree (do
          let (next, _) ← tryCatch (nodeRead g (u32 (32 * i + 32)) (fun _ => 0) 32)
            fun _ => throw (.rc .eio)
          if next = 32 then writeEntry g (u32 (32 * i + 32)) (fun _ => 0) .enospc) n
          (d1.put g s1 (32 * i) e 32) fun r n' d' => Moved n n' ∧
            ((r = .ok () ∧ ∃ d1 s1, NodeAt g d' n' s1 ∧ Placed g d s i e d1 s1 d') ∨
              (r = .error (.rc .enospc) ∧ d' = d ∧ NodeAt g d n' s)) := by
      intro d1 s1 hgrow hat hlt hbefore
      refine ensures_newEnd hg (hat.of_next (Disk.put_next ..)) hlt ?_
      intro n' d'' hm hat' hnext hw hsame hafter
      have hself : d''.slot g s1 i = clip e := by
        rw [hsame i le_rfl, slot_put (hat.nodup hg) (bpc_pos hg) e hlt, if_pos rfl]
      have hlow : ∀ j < i, d''.slot g s1 j = d.slot g s j := fun j hj => by
        rw [hsame j (by omega), slot_put (hat.nodup hg) (bpc_pos hg) e (by omega),
          if_neg (by omega), hbefore j hj]
      refine ⟨hm, .inl ⟨rfl, d1, s1, hat', hgrow, hnext.trans (Disk.put_next ..),
        (Within.put ..).trans hw, hlt, fun j hj => ?_, fun j => ?_⟩⟩
      · rcases Nat.lt_or_eq_of_le hj with hj' | rfl
        · rw [hlow j hj']
          exact hused j hj'
        · rw [hself]
          exact hclip
      · rw [listedAt_push (N := s.slots g) (f := d.slot g s) (hend.elim (fun h => .inr h.2)
          fun h => .inl h.1) hlt hused hclip hself hlow hafter
          (hend.elim (fun h => le_of_lt h.1) fun h => le_of_eq h.1) j]
    rcases hend with ⟨hlt, -⟩ | ⟨rfl, hroot, -⟩
    · refine (yields_writeEntry hg h hlt e .enospc).bind ?_
      exact hrest d s (.stay s) h hlt fun _ _ => rfl
    · cases s with
      | root => exact absurd rfl hroot
      | clusters l =>
        have hl : l ≠ [] := fun h0 => hne (by rw [h0])
        refine .bind ((ensures_writeEntry_grow hg h hl (hgrow l rfl rfl) hdir e .enospc).mono ?_)
        rintro r n' d' ⟨rfl, ⟨rfl, c, d1, hext, rfl⟩ | ⟨rfl, rfl⟩⟩
        · have := two_le_slots_append (l := l) (c := c) hg
          exact hrest d1 _ (.more hext hl) (.extend h hl hext) (by omega)
            fun j hj => hext.slot_same hj
        · exact ⟨.refl _, .inr ⟨rfl, rfl, h⟩⟩

/-! ## A new directory -/

/-- The first bytes of the first cluster of a directory. -/
def dirBlock (cluster up : Nat) : Buf := fun i =>
  if i < 32 then dotEntry 1 cluster i else if i < 64 then dotEntry 2 up (i - 32) else 0

theorem yields_newDirectory (h : d.IsChain g [c]) :
    Yields (onDisk g agree) (newDirectory g c) n d () n
      (d.put g (.clusters [c]) 0 (dirBlock c (if n.fixedRoot then 0 else n.firstCluster)) 96) := by
  have hat : NodeAt g d (dirAt false c) (.clusters [c]) := ⟨rfl, h, rfl, .inl rfl⟩
  have hfit : 0 + 96 ≤ (clusters [c]).size g := by
    have := hg.bpc_eq
    have := hg.spc_pos
    show 0 + 96 ≤ [c].length * g.bytesPerCluster
    rw [length_singleton]
    omega
  refine .get_bind ?_
  exact (Yields.onLocal (.tryCatch (yields_nodeWrite_inside hg hat (syncEntry g)
    (dirBlock c (if n.fixedRoot then 0 else n.firstCluster)) (by omega) hfit
    (fun h => by cases h)))).bind Yields.pure

theorem dirBlock_entryAt (up j : Nat) : entryAt ((Place.clusters [c]).slots g)
      ((d.put g (.clusters [c]) 0 (dirBlock c up) 96).slot g (.clusters [c])) j = none := by
  have hslots : 16 ≤ (clusters [c]).slots g := by
    have := hg.bpc_eq
    have := hg.spc_pos
    show 16 ≤ [c].length * g.bytesPerCluster / 32
    rw [length_singleton]
    omega
  have hbyte : ∀ k < 3, ∀ b < 32,
      (d.put g (.clusters [c]) 0 (dirBlock c up) 96).slot g (.clusters [c]) k b =
        dirBlock c up (32 * k + b) := by
    intro k hk b hb
    unfold Disk.slot
    rw [if_pos hb, byteAt_put (by rintro l ⟨⟩; exact nodup_singleton c) (bpc_pos hg)
      (slot_in (by omega) hb), if_pos (by omega), Nat.sub_zero]
  rcases lt_or_ge j 2 with hj | hj
  · -- the two dots
    unfold entryAt
    split
    · unfold named isNamed isDot
      rw [hbyte j (by omega) 0 (by omega), hbyte j (by omega) 1 (by omega),
        hbyte j (by omega) 2 (by omega)]
      have hdots : decide (dirBlock c up (32 * j + 0) = 46 ∧ (dirBlock c up (32 * j + 1) = 32 ∨
          (dirBlock c up (32 * j + 1) = 46 ∧ dirBlock c up (32 * j + 2) = 32))) = true := by
        rcases Nat.lt_succ_iff_lt_or_eq.mp hj with h0 | rfl
        · obtain rfl : j = 0 := by omega
          exact decide_eq_true ⟨rfl, .inl rfl⟩
        · exact decide_eq_true ⟨rfl, .inr ⟨rfl, rfl⟩⟩
      rw [hdots]
      simp
    · rfl
  · exact entryAt_of_end ⟨2, hj, hbyte 2 (by omega) 0 (by omega)⟩

end Entries

end ManiOS.Fat
