import Mathlib.Data.List.Perm.Subperm
import ManiOS.Fat.Disk

/-!
# Chains of clusters

What `alloc_cluster`, `free_chain`, `cluster_at` and `cluster_for_write` do to
the chains of a disk.  Each function gets one statement, in terms of the list
of clusters of the chain it works on, and its callers use that.

`cluster_for_write` walks a chain from its start and takes a free cluster
wherever it finds the end, up to the cluster it was asked for.  `Extends` is
what it does to the table even when it runs out of clusters on the way: the
chain it was given goes on with clusters that were free, and no other entry
changes.
-/

namespace ManiOS.Fat

open ManiOS.Lib List
open Disk (setNext_next ext putData_data)

/-- The clusters of `l` in a row, the last one marked as the end. -/
abbrev Disk.IsChain (g : Geometry) (d : Disk) (l : List Nat) : Prop :=
  Chain d.next (fun c => validCluster g c = true) (fun x => isEndOfChain g x = true) l

def Disk.freed (d : Disk) (l : List Nat) : Disk :=
  { d with next := fun c => if c ∈ l then 0 else d.next c }

/-- Few enough clusters that none looks like an end marker. -/
structure Geometry.Usable (g : Geometry) : Prop where
  few : g.clusterCount < 65525
  few12 : g.fat12 = true → g.clusterCount < 4085
  spc_pos : 1 ≤ g.sectorsPerCluster
  spc_le : g.sectorsPerCluster ≤ 128
  bpc_eq : g.bytesPerCluster = g.sectorsPerCluster * 512
  rootBytes_mod : g.rootBytes % 32 = 0
  rootBytes_lt : g.rootBytes < 65536 * 32
  root_fits : g.rootStart + (g.rootBytes + 511) / 512 = g.dataStart

/-- The same for FAT16, where an entry takes every value. -/
structure Geometry.Fat16 (g : Geometry) : Prop extends Geometry.Usable g where
  fat12 : g.fat12 = false

instance {g : Geometry} : Coe g.Fat16 g.Usable := ⟨Geometry.Fat16.toUsable⟩

theorem Vol.Usable.geometry {g : Geometry} {agree : Prop} {v : Vol} (h : v.Usable g agree) :
    g.Usable where
  few := h.mounted.clusters_lt
  few12 h12 := by
    rw [h.mounted.fat12_eq] at h12
    exact of_decide_eq_true h12
  spc_pos := h.mounted.spc_pos
  spc_le := h.mounted.spc_le
  bpc_eq := h.mounted.bpc_eq
  rootBytes_mod := h.mounted.rootBytes_mod
  rootBytes_lt := h.mounted.rootBytes_lt
  root_fits := h.mounted.dataStart_eq.symm

theorem Vol.Good.geometry {g : Geometry} {v : Vol} (h : v.Good g) : g.Fat16 :=
  ⟨h.toUsable.geometry, h.fat16⟩

section Chains

variable {σ : Type} {g : Geometry} {agree : Prop} {d : Disk} {n : σ} {l : List Nat} {c : Nat}

/-- Where the end markers start. -/
def Geometry.ends (g : Geometry) : Nat := if g.fat12 then 0xFF8 else 0xFFF8

theorem isEndOfChain_iff {x : Nat} : isEndOfChain g x = true ↔ g.ends ≤ x := decide_eq_true_iff

theorem Geometry.Usable.clusters_lt_ends (hg : g.Usable) : g.clusterCount + 2 < g.ends := by
  unfold Geometry.ends
  split
  next h =>
    have := hg.few12 h
    omega
  next =>
    have := hg.few
    omega

theorem not_end_of_valid (hg : g.Usable) (c : Nat) (hc : validCluster g c = true) :
    ¬ isEndOfChain g c = true := by
  have := validCluster_lt hc
  have := hg.clusters_lt_ends
  rw [isEndOfChain_iff]
  omega

theorem zero_not_end (g : Geometry) : ¬ isEndOfChain g 0 = true := by
  rw [isEndOfChain_iff]
  unfold Geometry.ends
  split <;> omega

theorem endMarker_end (g : Geometry) : isEndOfChain g (endMarker g) = true := by
  rw [isEndOfChain_iff]
  unfold Geometry.ends endMarker
  split <;> omega

theorem endMarker_fits (g : Geometry) : g.EntryFits (endMarker g) := by
  unfold Geometry.EntryFits endMarker
  split <;> omega

theorem valid_fits (hg : g.Usable) (hc : validCluster g c = true) : g.EntryFits c := by
  have := validCluster_lt hc
  have := hg.clusters_lt_ends
  unfold Geometry.EntryFits
  unfold Geometry.ends at this
  split <;> simp_all <;> omega

theorem zero_fits (g : Geometry) : g.EntryFits 0 := by
  unfold Geometry.EntryFits
  split <;> omega

theorem valid_lt_65536 (hg : g.Usable) (hc : validCluster g c = true) : c < 65536 := by
  have := validCluster_lt hc
  have := hg.few
  omega

theorem Disk.IsChain.nodup (hg : g.Usable) (h : d.IsChain g l) : l.Nodup :=
  Chain.nodup (not_end_of_valid hg) h

theorem Disk.IsChain.length_le (hg : g.Usable) (h : d.IsChain g l) : l.length ≤ g.clusterCount := by
  have hsub : l ⊆ range' 2 g.clusterCount := by
    intro a ha
    have := validCluster_iff.mp (h.cells a ha)
    rw [mem_range'_1]
    omega
  have := (subperm_of_subset (Disk.IsChain.nodup hg h) hsub).length_le
  rwa [length_range'] at this

theorem Disk.IsChain.next_used (h : d.IsChain g l) (hc : c ∈ l) : d.next c ≠ 0 := by
  intro h0
  rcases h.next_valid_or_stop hc with hv | hs
  · exact validCluster_ne_zero hv h0
  · exact zero_not_end g (h0 ▸ hs)

theorem Disk.IsChain.headD_valid (h : d.IsChain g l) (hne : l ≠ []) :
    validCluster g (l.headD 0) = true := by
  cases l with
  | nil => exact absurd rfl hne
  | cons a l => exact h.cells a mem_cons_self

/-! ## Taking a cluster -/

/-- What `alloc_cluster` does: a free cluster marked as an end, or nothing if
there is none. -/
def Allocates (g : Geometry) (d : Disk) (r : Except Stop Nat) (d' : Disk) : Prop :=
  (∃ c hint, r = .ok c ∧ validCluster g c = true ∧ d.next c = 0 ∧
      d' = (d.setNext c (endMarker g)).setHint hint) ∨
    (r = .error (.rc .enospc) ∧ d' = d ∧ ∀ c, validCluster g c = true → d.next c ≠ 0)

theorem ensures_allocClusterFrom (hcount : 0 < g.clusterCount) {start : Nat} (left : Nat) :
    ∀ i, left + i = g.clusterCount →
      (∀ j < i, d.next (2 + (start - 2 + j) % g.clusterCount) ≠ 0) →
      Does g agree (allocClusterFrom g start left i) n d fun r n' d' =>
        n' = n ∧ Allocates g d r d' := by
  induction left with
  | zero =>
    intro i hi hused
    refine .throw ⟨rfl, .inr ⟨rfl, rfl, fun c hc => ?_⟩⟩
    -- every residue has been looked at, and `c - 2` is one of them
    obtain ⟨h2, hlt⟩ := validCluster_iff.mp hc
    let j := (c - 2 + (g.clusterCount - (start - 2) % g.clusterCount)) % g.clusterCount
    have hj : j < i := by
      have : j < g.clusterCount := Nat.mod_lt _ hcount
      omega
    have hmod : (start - 2 + j) % g.clusterCount = c - 2 := by
      have hr : (start - 2) % g.clusterCount < g.clusterCount := Nat.mod_lt _ hcount
      rw [Nat.add_mod_mod, ← Nat.mod_add_mod,
        show (start - 2) % g.clusterCount +
          (c - 2 + (g.clusterCount - (start - 2) % g.clusterCount)) =
          c - 2 + g.clusterCount by omega,
        Nat.add_mod_right, Nat.mod_eq_of_lt (by omega)]
    have := hused j hj
    rwa [hmod, show 2 + (c - 2) = c by omega] at this
  | succ left ih =>
    intro i hi hused
    rw [allocClusterFrom]
    generalize hc' : 2 + (start - 2 + i) % g.clusterCount = c
    have hc : validCluster g c = true := by
      have := Nat.mod_lt (start - 2 + i) hcount
      exact validCluster_iff.mpr (by omega)
    refine (yields_fatEntry hc).bind ?_
    by_cases hfree : d.next c = 0
    · rw [if_pos hfree]
      refine (yields_fatSetEntry hc (endMarker_fits g)).bind ?_
      rw [hfree, Geometry.stored_free (endMarker_fits g)]
      refine (yields_setHint _).bind (.pure ⟨rfl, .inl ⟨c, _, rfl, hc, hfree, rfl⟩⟩)
    · rw [if_neg hfree]
      refine ih (i + 1) (by omega) fun j hj => ?_
      rcases Nat.lt_succ_iff_lt_or_eq.mp hj with hlt | rfl
      · exact hused j hlt
      · rw [hc']
        exact hfree

theorem ensures_allocCluster :
    Does g agree (allocCluster g) n d fun r n' d' => n' = n ∧ Allocates g d r d' := by
  refine yields_getHint.bind ?_
  rcases Nat.eq_zero_or_pos g.clusterCount with h0 | hpos
  · rw [h0]
    refine .throw ⟨rfl, .inr ⟨rfl, rfl, fun c hc => ?_⟩⟩
    have := validCluster_iff.mp hc
    omega
  · exact ensures_allocClusterFrom hpos g.clusterCount 0 (by omega) fun j hj => by omega

/-! ## Handing a chain back -/

/-- The clusters of `l` handed back as far as `fat_set_entry` does it. -/
def Disk.released (g : Geometry) (d : Disk) (l : List Nat) : Disk :=
  { d with next := fun c => if c ∈ l then g.stored c (d.next c) 0 else d.next c }

@[simp] theorem Disk.released_next (d : Disk) (l : List Nat) (c : Nat) :
    (d.released g l).next c = if c ∈ l then g.stored c (d.next c) 0 else d.next c := rfl

theorem Disk.released_16 (h : g.fat12 = false) (d : Disk) (l : List Nat) :
    d.released g l = d.freed l := by
  unfold Disk.released Disk.freed
  simp only [Geometry.stored_16 h]

theorem Disk.released_cons {a : Nat} {t : List Nat} (ha : a ∉ t) (d : Disk) :
    (d.setNext a (g.stored a (d.next a) 0)).released g t = d.released g (a :: t) := by
  refine ext (funext fun x => ?_) rfl rfl rfl
  rw [Disk.released_next, Disk.released_next, setNext_next]
  by_cases hx : x = a
  · subst hx
    rw [if_neg ha, if_pos rfl, if_pos mem_cons_self]
  · rw [if_neg hx]
    exact if_congr (by simp [hx]) rfl rfl

theorem yields_freeChainFrom (hg : g.Usable) :
    ∀ (l : List Nat) (left c : Nat) (d : Disk), d.IsChain g l → l.headD 0 = c →
      l.length ≤ left →
      Yields (onDisk g agree) (freeChainFrom g left c) n d () n (d.released g l) := by
  intro l
  induction l with
  | nil =>
    rintro left c d - rfl -
    cases left with
    | zero | succ => exact .pure
  | cons a l ih =>
    rintro left c d h rfl hleft
    have hc : validCluster g a = true := h.cells a mem_cons_self
    obtain ⟨left, rfl⟩ : ∃ k, left = k + 1 :=
      Nat.exists_eq_add_one_of_ne_zero (Nat.ne_zero_of_lt hleft)
    have hal : a ∉ l := (nodup_cons.mp (Disk.IsChain.nodup hg h)).1
    show Yields _ (freeChainFrom g (left + 1) a) n d () n _
    rw [freeChainFrom, if_pos hc, ← Disk.released_cons hal]
    refine (yields_fatEntry hc).bind ?_
    refine (yields_fatSetEntry hc (zero_fits g)).bind ?_
    cases l with
    | nil =>
      have hend : isEndOfChain g (d.next a) = true := h.links
      rw [if_pos hend]
      exact Yields.pure
    | cons b l =>
      have hb : d.next a = b := h.links.1
      have hvb : validCluster g b = true := h.cells b (by simp)
      have hnot : ¬ isEndOfChain g (d.next a) = true := hb ▸ not_end_of_valid hg b hvb
      rw [if_neg hnot]
      rw [show validCluster g (d.next a) = true from hb ▸ hvb]
      refine ih left (d.next a) _ (h.tail.congr fun x hx => ?_) hb.symm
        (Nat.le_of_succ_le_succ hleft)
      rw [setNext_next, if_neg]
      rintro rfl
      exact hal hx

theorem ensures_freeChain_released (hg : g.Usable) (h : d.IsChain g l) (hc : l.headD 0 = c) :
    Does g agree (freeChain g c) n d fun r n' d' =>
      r = .ok () ∧ n' = n ∧ ∃ hint, d' = (d.released g l).setHint hint := by
  unfold freeChain
  have hlen := Disk.IsChain.length_le hg h
  have hfrom : ∀ hint, Yields (onDisk g agree) (freeChainFrom g (g.clusterCount + 1) c) n
      (d.setHint hint) () n ((d.setHint hint).released g l) := fun hint =>
    yields_freeChainFrom hg l _ c (d.setHint hint) h hc (by omega)
  by_cases hv : validCluster g c = true
  · rw [if_pos hv]
    refine (yields_setHint c).bind ((hfrom c).mono ?_)
    rintro r n' d' ⟨rfl, rfl, rfl⟩
    exact ⟨rfl, rfl, c, rfl⟩
  · rw [if_neg hv]
    refine Yields.pure.bind ((hfrom d.hint).mono ?_)
    rintro r n' d' ⟨rfl, rfl, rfl⟩
    exact ⟨rfl, rfl, d.hint, rfl⟩

/-- `free_chain` hands back the clusters of a chain, and nothing else. -/
theorem ensures_freeChain (hg : g.Fat16) (h : d.IsChain g l) (hc : l.headD 0 = c) :
    Does g agree (freeChain g c) n d fun r n' d' =>
      r = .ok () ∧ n' = n ∧ ∃ hint, d' = (d.freed l).setHint hint := by
  refine (ensures_freeChain_released hg h hc).mono ?_
  rintro r n' d' ⟨rfl, rfl, hint, rfl⟩
  exact ⟨rfl, rfl, hint, by rw [Disk.released_16 hg.fat12]⟩

/-! ## Following a chain -/

theorem yields_followChain (hg : g.Usable) :
    ∀ (l : List Nat) (c k : Nat), d.IsChain g l → l.head? = some c → k ≤ g.clusterCount →
      Yields (onDisk g agree) (followChain g k c) n d l[k]? n d := by
  intro l
  induction l with
  | nil =>
    intro c k _ hc _
    cases hc
  | cons a l ih =>
    intro c k h hc hk
    cases hc
    have hv : validCluster g a = true := h.cells a mem_cons_self
    cases k with
    | zero => exact .pure
    | succ k =>
      rw [followChain, if_neg (by omega)]
      refine (yields_fatEntry hv).bind ?_
      cases l with
      | nil =>
        have hend : isEndOfChain g (d.next a) = true := h.links
        rw [if_pos hend]
        exact Yields.pure
      | cons b l =>
        have hb : d.next a = b := h.links.1
        have hvb : validCluster g b = true := h.cells b (by simp)
        rw [hb, if_neg (not_end_of_valid hg b hvb), hvb]
        exact ih b k h.tail rfl (by omega)

end Chains

/-- A node whose contents are the chain `l`, with its cursor on it. -/
structure OnChain (g : Geometry) (d : Disk) (n : FatNode) (l : List Nat) : Prop where
  notRoot : n.fixedRoot = false
  chain : d.IsChain g l
  first : n.firstCluster = l.headD 0
  cursor : n.cursorCluster = 0 ∨ l[n.cursorIndex]? = some n.cursorCluster

/-- A node whose contents are the chain `l`, with a cursor that is on it or too
far on to be used at `index`. -/
structure OnChainAt (g : Geometry) (d : Disk) (n : FatNode) (l : List Nat) (index : Nat) :
    Prop where
  notRoot : n.fixedRoot = false
  chain : d.IsChain g l
  first : n.firstCluster = l.headD 0
  cursor : n.cursorCluster = 0 ∨ index < n.cursorIndex ∨ l[n.cursorIndex]? = some n.cursorCluster

/-- A node whose cursor was moved to a place of the chain, if it has that place. -/
def FatNode.seek (n : FatNode) (l : List Nat) (index : Nat) : FatNode :=
  match l[index]? with
  | some c => { n with cursorIndex := index, cursorCluster := c }
  | none => n

section Nodes

variable {g : Geometry} {agree : Prop} {d d' : Disk} {n : FatNode} {l l' : List Nat} {c index : Nat}

theorem OnChain.seek (h : OnChain g d n l) (index : Nat) : OnChain g d (n.seek l index) l := by
  unfold FatNode.seek
  split
  next c hc => exact ⟨h.notRoot, h.chain, h.first, .inr hc⟩
  next => exact h

theorem OnChain.at (h : OnChain g d n l) (index : Nat) : OnChainAt g d n l index :=
  ⟨h.notRoot, h.chain, h.first, h.cursor.imp_right .inr⟩

theorem OnChainAt.seek (h : OnChainAt g d n l index) (hi : index < l.length) :
    OnChain g d (n.seek l index) l := by
  unfold FatNode.seek
  rw [getElem?_eq_getElem hi]
  exact ⟨h.notRoot, h.chain, h.first, .inr (getElem?_eq_getElem hi)⟩

/-- The walk of `cluster_at`, which starts at the cursor or at the start of the chain. -/
theorem yields_walk (hg : g.Usable) (h : OnChainAt g d n l index) (hi : index ≤ g.clusterCount)
    {i : Nat} (hle : i ≤ index) (hc : l[i]? = some c) :
    Yields (onDisk g agree) (do match ← followChain g (index - i) c with
      | none => pure 0
      | some c =>
        .modify fun n => { n with cursorIndex := index, cursorCluster := c }
        pure c) n d (l.getD index 0) (n.seek l index) d := by
  have hdrop : d.IsChain g (l.drop i) := by
    have := h.chain
    rw [← take_append_drop i l] at this
    exact this.drop
  have hhead : (l.drop i).head? = some c := by rw [head?_drop, hc]
  have hget : (l.drop i)[index - i]? = l[index]? := by
    rw [getElem?_drop, Nat.add_sub_cancel' hle]
  refine (yields_followChain hg _ c _ hdrop hhead (by omega)).bind ?_
  rw [hget, FatNode.seek, getD_eq_getElem?_getD]
  cases l[index]? with
  | none => exact Yields.pure
  | some b => exact .modify_bind Yields.pure

/-- `cluster_at`: the cluster at an index, or 0 past the end. -/
theorem yields_clusterAt (hg : g.Usable) (h : OnChainAt g d n l index)
    (hi : index ≤ g.clusterCount) :
    Yields (onDisk g agree) (clusterAt g index) n d (l.getD index 0) (n.seek l index) d := by
  refine .get_bind ?_
  by_cases hcur : n.cursorCluster ≠ 0 ∧ n.cursorIndex ≤ index
  · have hc : l[n.cursorIndex]? = some n.cursorCluster :=
      (h.cursor.resolve_left hcur.1).resolve_left (by omega)
    have hv : validCluster g n.cursorCluster = true := h.chain.cells _ (mem_of_getElem? hc)
    simp only [if_pos hcur, hv, Bool.not_true, Bool.false_eq_true, if_false]
    exact yields_walk hg h hi hcur.2 hc
  · simp only [if_neg hcur]
    rw [h.first]
    cases l with
    | nil => exact Yields.pure
    | cons a l =>
      have hv : validCluster g a = true := h.chain.cells a mem_cons_self
      simp only [headD_cons, hv, Bool.not_true, Bool.false_eq_true, if_false]
      exact yields_walk hg h hi (Nat.zero_le _) rfl

end Nodes

/-! ## Growing a chain -/

def Disk.Full (g : Geometry) (d : Disk) : Prop := ∀ c, validCluster g c = true → d.next c ≠ 0

/-- `d'` is `d` with the chain `l` gone on to `l'` by free clusters, which hold
zeros if the chain is a directory's. -/
structure Extends (g : Geometry) (dir : Prop) [Decidable dir] (d d' : Disk) (l l' : List Nat) :
    Prop where
  grown : ∃ ex, l' = l ++ ex
  chain : d'.IsChain g l'
  fresh : ∀ c ∈ l', c ∉ l → d.next c = 0
  same : ∀ c, c ∉ l' → d'.next c = d.next c
  root : d'.root = d.root
  data : ∀ c i, d'.data c i = if dir ∧ c ∈ l' ∧ c ∉ l ∧ i < g.bytesPerCluster then 0 else d.data c i
  idle : l' = l → d' = d

section Growing

variable {g : Geometry} {agree : Prop} {dir : Prop} [Decidable dir] {d d1 d2 : Disk} {n : FatNode}
  {l l1 l2 : List Nat} {c index : Nat}

theorem Extends.refl (h : d.IsChain g l) : Extends g dir d d l l where
  grown := ⟨[], (append_nil l).symm⟩
  chain := h
  fresh _ hc hn := absurd hc hn
  same _ _ := rfl
  root := rfl
  data _ _ := (if_neg fun h => h.2.2.1 h.2.1).symm
  idle _ := rfl

variable (h : Extends g dir d d1 l l1)
include h

theorem Extends.subset (hc : c ∈ l) : c ∈ l1 := by
  obtain ⟨ex, rfl⟩ := h.grown
  exact mem_append_left ex hc

theorem Extends.length_le : l.length ≤ l1.length := by
  obtain ⟨ex, rfl⟩ := h.grown
  rw [length_append]
  omega

theorem Extends.eq_of_length (hlen : l1.length ≤ l.length) : l1 = l := by
  obtain ⟨ex, rfl⟩ := h.grown
  rw [length_append] at hlen
  rw [length_eq_zero_iff.mp (show ex.length = 0 by omega), append_nil]

theorem Extends.headD (hne : l ≠ []) : l1.headD 0 = l.headD 0 := by
  obtain ⟨ex, rfl⟩ := h.grown
  cases l with
  | nil => exact absurd rfl hne
  | cons a l => rfl

omit h

theorem Extends.trans (h1 : Extends g dir d d1 l l1) (h₂ : Extends g dir d1 d2 l1 l2) :
    Extends g dir d d2 l l2 where
  grown := by
    obtain ⟨ex1, rfl⟩ := h1.grown
    obtain ⟨ex2, rfl⟩ := h₂.grown
    exact ⟨ex1 ++ ex2, append_assoc _ _ _⟩
  chain := h₂.chain
  fresh c hc hn := by
    by_cases hc1 : c ∈ l1
    · exact h1.fresh c hc1 hn
    · rw [← h1.same c hc1]
      exact h₂.fresh c hc hc1
  same c hc := by
    have hc1 : c ∉ l1 := fun h => hc (h₂.subset h)
    rw [h₂.same c hc, h1.same c hc1]
  root := h₂.root.trans h1.root
  data c i := by
    rw [h₂.data, h1.data]
    by_cases hc1 : c ∈ l1
    · have hc2 := h₂.subset hc1
      simp [hc1, hc2]
    · have hcl : c ∉ l := fun h => hc1 (h1.subset h)
      simp [hc1, hcl]
  idle he := by
    have hl1 : l1 = l := h1.eq_of_length (he ▸ h₂.length_le)
    rw [h₂.idle (he.trans hl1.symm), h1.idle hl1]

theorem not_mem_of_free (h : d.IsChain g l) (hfree : d.next c = 0) : c ∉ l :=
  fun hc => h.next_used hc hfree

theorem putData_zeros (d : Disk) (c a k m : Nat) :
    (d.putData c a (fun _ => 0) k).putData c (a + k) (fun _ => 0) m =
      d.putData c a (fun _ => 0) (k + m) := by
  refine ext rfl rfl (funext fun c' => ?_) rfl
  simp only [putData_data]
  by_cases hc : c' = c
  · simp only [hc, if_true]
    funext i
    simp only [memcpy]
    by_cases h1 : a ≤ i ∧ i < a + (k + m)
    · rw [if_pos h1]
      by_cases h₂ : a + k ≤ i ∧ i < a + k + m
      · rw [if_pos h₂]
      · rw [if_neg h₂, if_pos (by omega)]
    · rw [if_neg h1, if_neg (by omega), if_neg (by omega)]
  · simp only [hc, if_false]

theorem yields_zeroCluster {σ : Type} {n : σ} (hc : validCluster g c = true) (left : Nat) :
    ∀ (s : Nat) (d : Disk), s + left ≤ g.sectorsPerCluster →
      Yields (onDisk g agree) (zeroCluster g c left s) n d () n
        (d.putData c (512 * s) (fun _ => 0) (512 * left)) := by
  induction left with
  | zero =>
    intro s d _
    have hnil : d.putData c (512 * s) (fun _ => 0) (512 * 0) = d := by
      refine ext rfl rfl (funext fun c' => ?_) rfl
      rw [putData_data]
      by_cases hc' : c' = c
      · rw [if_pos hc', hc']
        exact funext fun i => memcpy_outside (by omega)
      · rw [if_neg hc']
    rw [hnil]
    exact .pure
  | succ left ih =>
    intro s d hs
    refine (Yields.tryCatch (yields_writeData _ hc (by omega))).bind ?_
    have hnext := ih (s + 1) (d.putData c (512 * s) (fun _ => 0) 512) (by omega)
    rwa [show 512 * (s + 1) = 512 * s + 512 by omega, putData_zeros,
      show 512 + 512 * left = 512 * (left + 1) by omega] at hnext

/-- A new cluster, cleared if it is for a directory, before it is linked. -/
theorem ensures_newCluster {β : Type} {f : Nat → FatM FatNode β} (hg : g.Usable)
    {post : Except Stop β → FatNode → Disk → Prop}
    (hfull : d.Full g → post (.error (.rc .enospc)) n d)
    (hf : ∀ c d1, validCluster g c = true → d.next c = 0 →
      Extends g (n.type = .dir) d d1 [] [c] → Does g agree (f c) n d1 post) : Does g agree (do
      let c ← allocCluster g
      let n ← Proc.get
      if n.type = .dir then zeroCluster g c g.sectorsPerCluster 0
      f c) n d post := by
  refine .bind (ensures_allocCluster.mono ?_)
  rintro r n' d' ⟨rfl, ⟨c, hint, rfl, hc, hfree, rfl⟩ | ⟨rfl, rfl, hall⟩⟩
  · refine .get_bind ?_
    have hchain : ((d.setNext c (endMarker g)).setHint hint).IsChain g [c] := by
      refine .singleton hc ?_
      show isEndOfChain g ((d.setNext c (endMarker g)).next c) = true
      rw [setNext_next, if_pos rfl]
      exact endMarker_end g
    have hext : ∀ d1 : Disk, d1.next = (d.setNext c (endMarker g)).next → d1.root = d.root →
        (∀ c' i, d1.data c' i =
          if n'.type = .dir ∧ c' = c ∧ i < g.bytesPerCluster then 0 else d.data c' i) →
        Extends g (n'.type = .dir) d d1 [] [c] := by
      intro d1 hnext hroot hdata
      refine ⟨⟨[c], rfl⟩, hchain.congr fun a _ => by rw [hnext]; rfl, ?_, ?_, hroot, ?_,
        fun he => nomatch he⟩
      · intro x hx _
        rw [mem_singleton] at hx
        rw [hx]
        exact hfree
      · intro x hx
        rw [mem_singleton] at hx
        rw [hnext, setNext_next, if_neg hx]
      · intro x i
        simp only [hdata x i, mem_singleton, not_mem_nil, not_false_eq_true, true_and]
    by_cases hdir : n'.type = .dir
    · rw [if_pos hdir]
      refine (yields_zeroCluster hc g.sectorsPerCluster 0 _ (by omega)).bind ?_
      refine hf c _ hc hfree (hext _ rfl rfl fun x i => ?_)
      rw [putData_data]
      by_cases hx : x = c
      · subst hx
        rw [if_pos rfl]
        by_cases hi : i < g.bytesPerCluster
        · rw [if_pos ⟨hdir, rfl, hi⟩]
          rw [hg.bpc_eq] at hi
          exact memcpy_inside (by omega) (by omega)
        · rw [if_neg (fun h => hi h.2.2)]
          rw [hg.bpc_eq] at hi
          exact memcpy_outside (by omega)
      · rw [if_neg hx, if_neg (fun h => hx h.2.1)]
        rfl
    · rw [if_neg hdir]
      refine Yields.pure.bind (hf c _ hc hfree (hext _ rfl rfl fun x i => ?_))
      rw [if_neg (fun h => hdir h.1)]
      rfl
  · exact hfull hall

/-- The entry of cluster `p` can be made to name any free cluster. -/
def Disk.Linkable (g : Geometry) (d : Disk) (p : Nat) : Prop :=
  ∀ c, validCluster g c = true → d.next c = 0 → g.stored p (d.next p) c = c

variable {s : List Nat}

/-- What `cluster_for_write` does where a chain ends after `p`. -/
theorem ensures_growChain {p : Nat} (hg : g.Usable) (h : d.IsChain g (s ++ [p]))
    (hset : d.Linkable g p) (sync : FatM FatNode Unit) :
    Does g agree (growChain g sync p) n d fun r n' d' => n' = n ∧
      ((∃ c, r = .ok c ∧ Extends g (n.type = .dir) d d' (s ++ [p]) (s ++ [p] ++ [c])) ∨
        (r = .error (.rc .enospc) ∧ d' = d ∧ d.Full g)) := by
  have hp : validCluster g p = true := h.cells p (by simp)
  have hp0 : p ≠ 0 := validCluster_ne_zero hp
  refine ensures_newCluster hg (fun hfull => ⟨rfl, .inr ⟨rfl, rfl, hfull⟩⟩)
    fun c d1 hc hfree hext => ?_
  have hnot : c ∉ s ++ [p] := not_mem_of_free h hfree
  have hcp : c ≠ p := fun he => hnot (by simp [he])
  have hold : d1.next p = d.next p := hext.same p (by simpa using Ne.symm hcp)
  rw [if_pos hp0]
  refine (yields_fatSetEntry hp (valid_fits hg hc)).bind (.pure ⟨rfl, .inl ⟨c, rfl, ?_⟩⟩)
  rw [hold, hset c hc hfree]
  have hps : p ∉ s := by
    have := Disk.IsChain.nodup hg h
    rw [nodup_append] at this
    exact fun hm => this.2.2 p hm p mem_cons_self rfl
  have hsame : ∀ b, b ≠ c → d1.next b = d.next b := fun b hb =>
    hext.same b (by simpa using hb)
  refine ⟨⟨[c], rfl⟩, ?_, ?_, ?_, hext.root, ?_, fun he => by simp at he⟩
  · refine .snoc h (fun b hb => ?_) ?_ ?_ hc
    · have hbp : b ≠ p := fun he => hps (he ▸ hb)
      have hbc : b ≠ c := fun he => hnot (by simp [← he, hb])
      rw [setNext_next, if_neg hbp, hsame b hbc]
    · rw [setNext_next, if_pos rfl]
    · rw [setNext_next, if_neg hcp]
      exact hext.chain.links
  · intro x hx hn
    rw [mem_append, mem_singleton] at hx
    rw [hx.resolve_left hn]
    exact hfree
  · intro x hx
    have hxp : x ≠ p := fun he => hx (by simp [he])
    have hxc : x ≠ c := fun he => hx (by simp [he])
    rw [setNext_next, if_neg hxp, hsame x hxc]
  · intro x i
    rw [Disk.setNext_data, hext.data]
    by_cases hx : x = c
    · simp [hx, hnot]
    · have hnot1 : x ∉ [c] := fun hm => hx (mem_singleton.mp hm)
      rw [if_neg (fun h => hnot1 h.2.1),
        if_neg (fun h => h.2.2.1 ((mem_append.mp h.2.1).resolve_right hnot1))]

/-- The cluster before position `i` of a chain, as `cluster_for_write` keeps it. -/
def prevOf (l : List Nat) : Nat → Nat
  | 0 => 0
  | i + 1 => l.getD i 0

/-- What `cluster_for_write` leaves: the chain reaches the cluster asked for, or
there was no cluster left to reach it with. -/
def Reaches (g : Geometry) (dir : Prop) [Decidable dir] (index : Nat) (d : Disk) (l : List Nat)
    (r : Except Stop Nat) (d' : Disk) (l' : List Nat) : Prop :=
  Extends g dir d d' l l' ∧
    ((r = .ok (l'.getD index 0) ∧ l'.length = max l.length (index + 1)) ∨
      (r = .error (.rc .enospc) ∧ d'.Full g ∧ l'.length ≤ index))

/-- The chain has cluster `index`, or can be made to reach it: it is FAT16, or
there is one cluster to add and the last one can name it. -/
def Growable (g : Geometry) (d : Disk) (l : List Nat) (index : Nat) : Prop :=
  index < l.length ∨ (index = l.length ∧ ∀ p, l.getLast? = some p → d.Linkable g p) ∨
    g.fat12 = false

theorem Growable.linkable {p : Nat} (h : Growable g d (s ++ [p]) index)
    (hi : (s ++ [p]).length ≤ index) : d.Linkable g p := by
  rcases h with h | ⟨-, h⟩ | h
  · omega
  · exact h p (by simp)
  · exact fun _ _ _ => Geometry.stored_16 h _ _ _

theorem Growable.grown {d' : Disk} (h : Growable g d s index)
    (hi : s.length ≤ index) : Growable g d' (s ++ [c]) index := by
  rcases h with h | ⟨h, -⟩ | h
  · omega
  · refine .inl ?_
    rw [length_append, length_singleton]
    omega
  · exact .inr (.inr h)

theorem ensures_clusterForWriteFrom (hg : g.Usable) (sync : FatM FatNode Unit) (left : Nat) :
    ∀ (i : Nat) (l : List Nat) (d : Disk), d.IsChain g l → l ≠ [] → i ≤ l.length → i ≤ index →
      Growable g d l index → left + i = g.clusterCount + 1 →
      Does g agree (clusterForWriteFrom g sync index left i (l.getD i 0) (prevOf l i)) n d
        fun r n' d' => n' = n ∧ ∃ l', Reaches g (n.type = .dir) index d l r d' l' := by
  induction left with
  | zero =>
    intro i l d h _ hi _ _ hleft
    have := Disk.IsChain.length_le hg h
    omega
  | succ left ih =>
    intro i l d h hne hi hindex hgrow hleft
    rw [clusterForWriteFrom]
    -- what the turn does once it stands on cluster `l[i]`
    have hstand : ∀ (l : List Nat) (d : Disk), d.IsChain g l → Growable g d l index →
        (hlt : i < l.length) → Does g agree (do
          if i = index then pure l[i]
          else
            let next ← fatEntry g l[i]
            if isEndOfChain g next then clusterForWriteFrom g sync index left (i + 1) 0 l[i]
            else if !validCluster g next then throw (.rc .eio)
            else clusterForWriteFrom g sync index left (i + 1) next l[i]) n d
          fun r n' d' => n' = n ∧ ∃ l', Reaches g (n.type = .dir) index d l r d' l' := by
      intro l d h hgrow hlt
      have hv : validCluster g l[i] = true := h.cells _ (getElem_mem hlt)
      have hprev : prevOf l (i + 1) = l[i] := getD_eq_getElem _ _ hlt
      by_cases hidx : i = index
      · rw [if_pos hidx]
        refine .pure ⟨rfl, l, .refl h, .inl ⟨?_, by omega⟩⟩
        rw [← hidx, getD_eq_getElem _ _ hlt]
      · rw [if_neg hidx]
        refine (yields_fatEntry hv).bind ?_
        have hrec := ih (i + 1) l d h (fun h0 => by simp [h0] at hlt) hlt (by omega) hgrow
          (by omega)
        rw [hprev] at hrec
        have hsplit : l = l.take i ++ l[i] :: l.drop (i + 1) := by
          rw [← drop_eq_getElem_cons hlt, take_append_drop]
        rcases lt_or_ge (i + 1) l.length with hlt' | hge
        · have hnext : d.next l[i] = l[i + 1] := by
            have hlinks := h.links
            rw [hsplit, drop_eq_getElem_cons hlt'] at hlinks
            exact hlinks.next_eq
          have hv' : validCluster g l[i + 1] = true := h.cells _ (getElem_mem hlt')
          rw [getD_eq_getElem _ _ hlt'] at hrec
          rw [hnext, if_neg (not_end_of_valid hg _ hv'), hv']
          exact hrec
        · have hend : isEndOfChain g (d.next l[i]) = true := by
            have hlinks := h.links
            rw [hsplit, drop_eq_nil_of_le hge] at hlinks
            exact hlinks.stop_last
          rw [getD_eq_default _ _ hge] at hrec
          rw [if_pos hend]
          exact hrec
    rcases lt_or_ge i l.length with hlt | hge
    · have hv : validCluster g l[i] = true := h.cells _ (getElem_mem hlt)
      rw [getD_eq_getElem _ _ hlt, if_neg (validCluster_ne_zero hv), hv]
      exact Yields.pure.bind (hstand l d h hgrow hlt)
    · -- the end of the chain: take a free cluster
      obtain ⟨s, p, rfl⟩ : ∃ s p, l = s ++ [p] :=
        ⟨l.dropLast, l.getLast hne, (dropLast_append_getLast hne).symm⟩
      have hlen : i = s.length + 1 := by
        rw [length_append, length_singleton] at hi hge
        omega
      subst hlen
      have hprev : prevOf (s ++ [p]) (s.length + 1) = p := by
        show (s ++ [p]).getD s.length 0 = p
        simp
      rw [getD_eq_default _ _ hge, hprev]
      refine .bind ((ensures_growChain hg h (hgrow.linkable (hge.trans hindex)) sync).mono ?_)
      rintro r n' d' ⟨rfl, ⟨c, rfl, hext⟩ | ⟨rfl, rfl, hfull⟩⟩
      · have hlt : s.length + 1 < (s ++ [p] ++ [c]).length := by simp
        have hget : (s ++ [p] ++ [c])[s.length + 1] = c := by simp
        have hrest := hstand (s ++ [p] ++ [c]) d' hext.chain (hgrow.grown (hge.trans hindex)) hlt
        rw [hget] at hrest
        refine hrest.mono ?_
        rintro r n'' d'' ⟨rfl, l', hext', hout⟩
        refine ⟨rfl, l', hext.trans hext', hout.imp (fun h => ⟨h.1, ?_⟩) id⟩
        have := h.2
        simp only [length_append, length_singleton] at this ⊢
        omega
      · refine ⟨rfl, s ++ [p], .refl h, .inr ⟨rfl, hfull, ?_⟩⟩
        omega

/-- `cluster_for_write` on a node that has a cluster: the entry of the node is
left alone. -/
theorem ensures_clusterForWrite (hg : g.Usable) (h : OnChain g d n l) (hne : l ≠ [])
    (hgrow : Growable g d l index) (sync : FatM FatNode Unit) :
    Does g agree (clusterForWriteWith g sync index) n d fun r n' d' =>
      n' = n ∧ ∃ l', Reaches g (n.type = .dir) index d l r d' l' := by
  refine .get_bind ?_
  have hfirst : n.firstCluster = l.getD 0 0 := by
    rw [h.first]
    cases l with
    | nil | cons => rfl
  rw [hfirst]
  exact ensures_clusterForWriteFrom hg sync (g.clusterCount + 1) 0 l d h.chain hne
    (Nat.zero_le _) (Nat.zero_le _) hgrow rfl

theorem yields_clusterForWrite (hg : g.Usable) (h : OnChain g d n l) (hi : index < l.length)
    (sync : FatM FatNode Unit) :
    Yields (onDisk g agree) (clusterForWriteWith g sync index) n d (l.getD index 0) n d := by
  have hne : l ≠ [] := fun h0 => by simp [h0] at hi
  refine (ensures_clusterForWrite hg h hne (.inl hi) sync).mono ?_
  rintro r n' d' ⟨rfl, l', hext, ⟨rfl, hlen⟩ | ⟨rfl, -, hlen⟩⟩
  · obtain rfl := hext.eq_of_length (by omega)
    exact ⟨rfl, rfl, hext.idle rfl⟩
  · have := hext.length_le
    omega

end Growing

end ManiOS.Fat
