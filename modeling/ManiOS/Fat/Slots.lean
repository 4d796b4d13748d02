import ManiOS.Fat.Tree

/-!
# A disk as a tree

A directory is read as a row of 32-byte slots that ends before the first slot
whose first byte is 0.  `entryAt` is what the row says at each slot, and
`Disk.tree` is that for every directory of a disk.

Most of this module is frame reasoning: which slots of which directories can
change when some bytes do.  Directories of a sound tree share no cluster
(`places_apart`), so bytes written into one are seen in no other.
-/

namespace ManiOS.Fat

open ManiOS.Lib List

/-- The entry of a file or a directory. -/
def isNamed (e : Buf) : Bool := isListed e && !isDot e

def entryOf (e : Buf) : Entry where
  dir := isDirEntry e
  first := entryCluster e
  size := entrySize e

/-- What a slot says, if it names a file or a directory. -/
def named (e : Buf) : Option Entry := if isNamed e then some (entryOf e) else none

/-- What a row of `N` slots says at slot `i`. -/
def entryAt (N : Nat) (f : Nat → Buf) (i : Nat) : Option Entry :=
  if i < N ∧ ∀ j ≤ i, f j 0 ≠ entryEnd then named (f i) else none

/-- The bytes of a slot that is neither deleted nor part of a long name nor a
label. -/
def listed (e : Buf) : Option Buf := if isListed e then some e else none

/-- The bytes a row of `N` slots lists at slot `i`. -/
def listedAt (N : Nat) (f : Nat → Buf) (i : Nat) : Option Buf :=
  if i < N ∧ ∀ j ≤ i, f j 0 ≠ entryEnd then listed (f i) else none

/-- The bytes a scan of the row shows at slot `i`: those listed, except for the
two entries a directory starts with. -/
def shownAt (N : Nat) (f : Nat → Buf) (i : Nat) : Option Buf :=
  (listedAt N f i).filter fun e => e 0 ≠ 46

/-- What a scan of the row shows from slot `i` on, with the slots. -/
def shownFrom (N : Nat) (f : Nat → Buf) (i : Nat) : List (Nat × Buf) :=
  (List.range' i (N - i)).filterMap fun j => (shownAt N f j).map (Prod.mk j)

variable (g : Geometry)

def Place.slots (s : Place) : Nat := s.size g / 32

def Disk.slot (d : Disk) (s : Place) (i : Nat) : Buf := fun j =>
  if j < 32 then d.byteAt g s (32 * i + j) else 0

/-- The entries a directory shows, with their slots. -/
def Disk.listing (d : Disk) (s : Place) : List (Nat × Buf) :=
  shownFrom (s.slots g) (d.slot g s) 0

def Disk.chainFrom (d : Disk) (c : Nat) : List Nat :=
  walk d.next (fun c => validCluster g c = true) g.clusterCount c

/-- Where a directory is: the root, or the clusters from its first one on. -/
def Disk.place (d : Disk) : Option Nat → Place
  | none => .root
  | some c => .clusters (d.chainFrom g c)

/-- What a disk says about its files and directories. -/
def Disk.tree (d : Disk) : Tree where
  next := d.next
  entry p i := entryAt ((d.place g p).slots g) (d.slot g (d.place g p)) i

/-- Where directory `p` is, with its chain in order. -/
inductive Stored (g : Geometry) (d : Disk) : Option Nat → Place → Prop
  | root : Stored g d none .root
  | chain {c : Nat} {l : List Nat} (hl : d.IsChain g l) (hc : l.head? = some c) :
      Stored g d (some c) (.clusters l)

/-- The bytes of place `s` are all in which the disks differ. -/
structure Within (s : Place) (d d' : Disk) : Prop where
  root : s ≠ .root → d'.root = d.root
  data : ∀ c, (∀ l, s = .clusters l → c ∉ l) → d'.data c = d.data c

theorem Within.refl (s : Place) (d : Disk) : Within s d d := ⟨fun _ => rfl, fun _ _ => rfl⟩

theorem Within.trans {s : Place} {d d1 d2 : Disk} (h1 : Within s d d1) (h2 : Within s d1 d2) :
    Within s d d2 :=
  ⟨fun hs => (h2.root hs).trans (h1.root hs), fun c hc => (h2.data c hc).trans (h1.data c hc)⟩

theorem Within.put {g : Geometry} (s : Place) (d : Disk) (off : Nat) (buf : Buf) (m : Nat) :
    Within s d (d.put g s off buf m) := by
  cases s with
  | root => exact ⟨fun h => absurd rfl h, fun _ _ => rfl⟩
  | clusters l => exact ⟨fun _ => rfl, fun c hc => Disk.put_data_outside d (hc l rfl) off buf m⟩

/-! ## Rows of slots -/

section Rows

variable {N N' i j : Nat} {f f' : Nat → Buf} {e : Buf}

theorem entryAt_eq_some {e : Entry} (h : entryAt N f i = some e) :
    i < N ∧ (∀ j ≤ i, f j 0 ≠ entryEnd) ∧ isNamed (f i) = true ∧ entryOf (f i) = e := by
  unfold entryAt at h
  split at h
  next hu =>
    unfold named at h
    split at h
    next hn => exact ⟨hu.1, hu.2, hn, Option.some.inj h⟩
    next => cases h
  next => cases h

theorem entryAt_of_used (hi : i < N) (hu : ∀ j ≤ i, f j 0 ≠ entryEnd) :
    entryAt N f i = named (f i) := if_pos ⟨hi, hu⟩

theorem entryAt_of_end (h : ∃ j ≤ i, f j 0 = entryEnd) : entryAt N f i = none := by
  obtain ⟨j, hj, he⟩ := h
  exact if_neg fun h => h.2 j hj he

theorem entryAt_of_ge (h : N ≤ i) : entryAt N f i = none := if_neg fun h' => by omega

theorem listed_bind_named (e : Buf) : (listed e).bind named = named e := by
  unfold listed
  split
  · rfl
  · unfold named isNamed
    simp [*]

theorem entryAt_eq_bind : entryAt N f i = (listedAt N f i).bind named := by
  unfold entryAt listedAt
  split
  · exact (listed_bind_named _).symm
  · rfl

theorem entryAt_of_listedAt (h : listedAt N' f' j = if j = i then listed e else listedAt N f j) :
    entryAt N' f' j = if j = i then named e else entryAt N f j := by
  rw [entryAt_eq_bind, h]
  split
  · exact listed_bind_named e
  · exact entryAt_eq_bind.symm

theorem listedAt_of_used (hi : i < N) (hu : ∀ j ≤ i, f j 0 ≠ entryEnd) :
    listedAt N f i = listed (f i) := if_pos ⟨hi, hu⟩

theorem listedAt_of_end (h : ∃ j ≤ i, f j 0 = entryEnd) : listedAt N f i = none := by
  obtain ⟨j, hj, he⟩ := h
  exact if_neg fun h => h.2 j hj he

theorem listedAt_of_ge (h : N ≤ i) : listedAt N f i = none := if_neg fun h' => by omega

/-- A row is seen up to its end only. -/
theorem listedAt_congr (h : ∀ j < N, f' j = f j) : listedAt N f' i = listedAt N f i := by
  by_cases hi : i < N
  · unfold listedAt
    have hu : (∀ j ≤ i, f' j 0 ≠ entryEnd) ↔ ∀ j ≤ i, f j 0 ≠ entryEnd := by
      constructor
      · intro hu j hj
        rw [← h j (by omega)]
        exact hu j hj
      · intro hu j hj
        rw [h j (by omega)]
        exact hu j hj
    rw [h i hi]
    simp only [hu]
  · rw [listedAt_of_ge (by omega), listedAt_of_ge (by omega)]

theorem entryAt_congr (h : ∀ j < N, f' j = f j) : entryAt N f' i = entryAt N f i := by
  rw [entryAt_eq_bind, entryAt_eq_bind, listedAt_congr h]

theorem listedAt_set (hi : i < N) (hu : ∀ j ≤ i, f j 0 ≠ entryEnd) (he : e 0 ≠ entryEnd)
    (hself : f' i = e) (hne : ∀ j < N, j ≠ i → f' j = f j) (j : Nat) :
    listedAt N f' j = if j = i then listed e else listedAt N f j := by
  have hzero : ∀ k < N, f' k 0 = entryEnd ↔ f k 0 = entryEnd := by
    intro k hk
    by_cases hki : k = i
    · subst hki
      rw [hself]
      exact ⟨fun h => absurd h he, fun h => absurd h (hu k le_rfl)⟩
    · rw [hne k hk hki]
  by_cases hj : j < N
  · have hiff : (∀ k ≤ j, f' k 0 ≠ entryEnd) ↔ ∀ k ≤ j, f k 0 ≠ entryEnd :=
      forall_congr' fun k => imp_congr_right fun hk => not_congr (hzero k (by omega))
    by_cases hji : j = i
    · subst hji
      rw [if_pos rfl, listedAt_of_used hj (hiff.mpr hu), hself]
    · rw [if_neg hji]
      unfold listedAt
      rw [hne j hj hji]
      simp only [hiff]
  · rw [if_neg (by omega), listedAt_of_ge (by omega), listedAt_of_ge (by omega)]

/-- A slot written where the row ended, with the end moved behind it. -/
theorem listedAt_push (hend : i = N ∨ f i 0 = entryEnd) (hi : i < N')
    (hu : ∀ j < i, f j 0 ≠ entryEnd) (he : e 0 ≠ entryEnd) (hself : f' i = e)
    (hbefore : ∀ j < i, f' j = f j) (hafter : i + 1 = N' ∨ f' (i + 1) 0 = entryEnd) (hiN : i ≤ N)
    (j : Nat) : listedAt N' f' j = if j = i then listed e else listedAt N f j := by
  rcases Nat.lt_trichotomy j i with hlt | rfl | hgt
  · rw [if_neg (by omega)]
    have hused : ∀ k ≤ j, f k 0 ≠ entryEnd := fun k hk => hu k (by omega)
    have hused' : ∀ k ≤ j, f' k 0 ≠ entryEnd := fun k hk => by
      rw [hbefore k (by omega)]
      exact hused k hk
    rw [listedAt_of_used (by omega) hused, listedAt_of_used (by omega) hused', hbefore j hlt]
  · rw [if_pos rfl, listedAt_of_used hi, hself]
    intro k hk
    rcases Nat.lt_or_eq_of_le hk with hlt | rfl
    · rw [hbefore k hlt]
      exact hu k hlt
    · rw [hself]
      exact he
  · rw [if_neg (by omega)]
    have hnone : listedAt N f j = none := by
      rcases hend with h | h
      · exact listedAt_of_ge (by omega)
      · exact listedAt_of_end ⟨i, by omega, h⟩
    rw [hnone]
    rcases hafter with h | h
    · exact listedAt_of_ge (by omega)
    · exact listedAt_of_end ⟨i + 1, by omega, h⟩

theorem shownAt_eq_some {x : Buf} : shownAt N f i = some x ↔
      i < N ∧ (∀ j ≤ i, f j 0 ≠ entryEnd) ∧ isVisible (f i) = true ∧ f i = x := by
  unfold shownAt listedAt listed
  rw [Option.filter_eq_some_iff]
  by_cases hu : i < N ∧ ∀ j ≤ i, f j 0 ≠ entryEnd
  · rw [if_pos hu]
    by_cases hl : isListed (f i) = true
    · rw [if_pos hl]
      constructor
      · rintro ⟨⟨⟩, h⟩
        exact ⟨hu.1, hu.2, by simpa [isVisible, hl] using h, rfl⟩
      · rintro ⟨-, -, hv, rfl⟩
        exact ⟨rfl, by simpa [isVisible, hl] using hv⟩
    · rw [if_neg hl]
      refine ⟨fun h => (nomatch h.1), fun h => absurd h.2.2.1 ?_⟩
      simp [isVisible, hl]
  · rw [if_neg hu]
    exact ⟨fun h => (nomatch h.1), fun h => absurd ⟨h.1, h.2.1⟩ hu⟩

theorem shownFrom_of_ge (h : N ≤ i) : shownFrom N f i = [] := by
  unfold shownFrom
  rw [Nat.sub_eq_zero_of_le h]
  rfl

theorem shownFrom_of_end (h : f i 0 = entryEnd) : shownFrom N f i = [] := by
  unfold shownFrom
  rw [filterMap_eq_nil_iff]
  intro j hj
  have hij : i ≤ j := (mem_range'_1.mp hj).1
  unfold shownAt
  rw [listedAt_of_end ⟨i, hij, h⟩]
  rfl

theorem shownFrom_step (hi : i < N) (hu : ∀ j ≤ i, f j 0 ≠ entryEnd) : shownFrom N f i =
      (if isVisible (f i) then [(i, f i)] else []) ++ shownFrom N f (i + 1) := by
  have hrange : range' i (N - i) = i :: range' (i + 1) (N - (i + 1)) := by
    rw [show N - i = N - (i + 1) + 1 by omega, range'_succ]
  unfold shownFrom
  rw [hrange, filterMap_cons]
  by_cases hv : isVisible (f i) = true
  · rw [shownAt_eq_some.mpr ⟨hi, hu, hv, rfl⟩, if_pos hv]
    rfl
  · have hnone : shownAt N f i = none := by
      rw [Option.eq_none_iff_forall_ne_some]
      exact fun x hx => hv (shownAt_eq_some.mp hx).2.2.1
    rw [hnone, if_neg hv]
    rfl

theorem mem_shownFrom {x : Nat × Buf} :
    x ∈ shownFrom N f i ↔ i ≤ x.1 ∧ shownAt N f x.1 = some x.2 := by
  obtain ⟨j, e⟩ := x
  unfold shownFrom
  rw [mem_filterMap]
  constructor
  · rintro ⟨k, hk, he⟩
    obtain ⟨y, hy, hye⟩ := Option.map_eq_some_iff.mp he
    cases hye
    exact ⟨(mem_range'_1.mp hk).1, hy⟩
  · rintro ⟨hij, he⟩
    have hlt := (shownAt_eq_some.mp he).1
    exact ⟨j, mem_range'_1.mpr ⟨hij, by omega⟩, by rw [he]; rfl⟩

end Rows

/-! ## Places of directories -/

section Places

variable {g : Geometry} {d d' : Disk} {p q : Option Nat} {s : Place} {l l' z : List Nat}
  {i j : Nat}

theorem Stored.place_eq (hg : g.Usable) (h : Stored g d p s) : d.place g p = s := by
  cases h with
  | root => rfl
  | chain hl hc =>
    exact congrArg Place.clusters
      (Chain.walk_eq (not_end_of_valid hg) hl hc (Disk.IsChain.length_le hg hl))

theorem Stored.entry (hg : g.Usable) (h : Stored g d p s) (i : Nat) :
    (d.tree g).entry p i = entryAt (s.slots g) (d.slot g s) i := by
  show entryAt ((d.place g p).slots g) (d.slot g (d.place g p)) i = _
  rw [h.place_eq hg]

theorem Tree.Sound.stored (hs : (d.tree g).Sound g z) (hp : (d.tree g).IsDir p) :
    ∃ s, Stored g d p s := by
  cases p with
  | none => exact ⟨.root, .root⟩
  | some c =>
    obtain ⟨p, i, e, l, hh, hd, hfirst, hmem⟩ := hs.dirChain hp
    refine ⟨.clusters l, .chain hh.chain ?_⟩
    have hf := hh.first
    cases l with
    | nil => cases hmem
    | cons a l => exact congrArg some (hf.symm.trans hfirst)

theorem Tree.Sound.owner (hg : g.Usable) (hs : (d.tree g).Sound g z) {c : Nat}
    (hp : (d.tree g).IsDir (some c)) (hl : Stored g d (some c) (.clusters l)) :
    ∃ p i e, (d.tree g).Holds g p i e l ∧ e.dir = true ∧ e.first = c := by
  obtain ⟨p, i, e, x, hh, hd, hfirst, hmem⟩ := hs.dirChain hp
  cases hl with
  | chain hl hc =>
    have hx : x = l := by
      refine chain_unique hg hh.chain hl ?_
      rw [← hh.first, hfirst]
      cases l with
      | nil => cases hc
      | cons a l => exact (Option.some.inj hc).symm
    exact ⟨p, i, e, hx ▸ hh, hd, hfirst⟩

theorem Tree.Sound.places_apart (hg : g.Usable) (hs : (d.tree g).Sound g z)
    (hp : (d.tree g).IsDir p) (hq : (d.tree g).IsDir q) (hne : p ≠ q)
    (hsp : Stored g d p (.clusters l)) (hsq : Stored g d q (.clusters l')) :
    List.Disjoint l l' := by
  obtain ⟨c, rfl⟩ : ∃ c, p = some c := by
    cases hsp
    exact ⟨_, rfl⟩
  obtain ⟨c', rfl⟩ : ∃ c, q = some c := by
    cases hsq
    exact ⟨_, rfl⟩
  obtain ⟨p, i, e, hh, -, rfl⟩ := hs.owner hg hp hsp
  obtain ⟨q, j, e', hh', -, rfl⟩ := hs.owner hg hq hsq
  refine hs.disjoint _ _ _ _ _ _ _ _ hh hh' ?_
  intro hslot
  cases hslot
  have he : e = e' := Option.some.inj (hh.entry.symm.trans hh'.entry)
  exact hne (by rw [he])

theorem slot_in (hi : i < s.slots g) (hj : j < 32) : 32 * i + j < s.size g := by
  unfold Place.slots at hi
  omega

theorem byteAt_clusters_congr {o : Nat} (h : ∀ c ∈ l, d'.data c = d.data c)
    (ho : o < (Place.clusters l).size g) :
    d'.byteAt g (.clusters l) o = d.byteAt g (.clusters l) o := by
  have hidx := div_lt_of_lt_size ho
  show d'.data _ _ = d.data _ _
  rw [h]
  rw [getD_eq_getElem _ _ hidx]
  exact getElem_mem hidx

theorem slot_congr (hi : i < s.slots g)
    (h : ∀ o < s.size g, d'.byteAt g s o = d.byteAt g s o) : d'.slot g s i = d.slot g s i := by
  funext j
  unfold Disk.slot
  by_cases hj : j < 32
  · rw [if_pos hj, if_pos hj, h _ (slot_in hi hj)]
  · rw [if_neg hj, if_neg hj]

theorem Stored.congr (h : Stored g d p s)
    (hnext : ∀ l, s = .clusters l → ∀ c ∈ l, d'.next c = d.next c) : Stored g d' p s := by
  cases h with
  | root => exact .root
  | chain hl hc => exact .chain (hl.congr (hnext _ rfl)) hc

/-- Nothing changed where a directory is stored. -/
structure SamePlace (s : Place) (d d' : Disk) : Prop where
  root : s = .root → d'.root = d.root
  clusters : ∀ l, s = .clusters l → ∀ c ∈ l, d'.next c = d.next c ∧ d'.data c = d.data c

theorem SamePlace.stored (h : SamePlace s d d') (hsp : Stored g d p s) : Stored g d' p s :=
  hsp.congr fun l hl c hc => (h.clusters l hl c hc).1

theorem SamePlace.slot (h : SamePlace s d d') (hj : j < s.slots g) :
    d'.slot g s j = d.slot g s j := by
  refine slot_congr hj fun o ho => ?_
  cases s with
  | root => exact congrFun (h.root rfl) o
  | clusters l => exact byteAt_clusters_congr (fun c hc => (h.clusters l rfl c hc).2) ho

theorem SamePlace.entry (hg : g.Usable) (h : SamePlace s d d') (hsp : Stored g d p s) (j : Nat) :
    (d'.tree g).entry p j = (d.tree g).entry p j := by
  rw [hsp.entry hg, (h.stored hsp).entry hg]
  exact entryAt_congr fun k hk => h.slot hk

end Places

end ManiOS.Fat
