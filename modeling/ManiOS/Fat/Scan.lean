import ManiOS.Fat.Slots

/-!
# Reading and writing slots

What the functions of `fat.c` that scan a directory and change its slots do to
a disk, slot by slot.  Scans read every slot up to the end and change nothing.
They end: a directory has fewer than `2 ^ 27` slots, so a scan is back at
offset 0 never.
-/

namespace ManiOS.Fat

open ManiOS.Lib List

/-- A slot with nothing beyond its 32 bytes. -/
def clip (e : Buf) : Buf := fun j => if j < 32 then e j else 0

theorem clip_of_lt (e : Buf) {j : Nat} (h : j < 32) : clip e j = e j := if_pos h

theorem named_clip (e : Buf) : named (clip e) = named e := rfl

variable {e : Buf}

theorem listed_deleted (h : e 0 = entryDeleted) : listed e = none := by
  unfold listed isListed
  simp [h]

theorem listed_longName (h : e 11 = attrLongName) : listed e = none := by
  unfold listed isListed
  simp [h]

theorem named_deleted (h : e 0 = entryDeleted) : named e = none := by
  unfold named isNamed isListed
  rw [h]
  simp

/-- What a scan shows is the entry of a file or a directory. -/
theorem named_of_visible (h : isVisible e = true) : named e = some (entryOf e) := by
  unfold isVisible at h
  rw [Bool.and_eq_true, decide_eq_true_eq] at h
  have hdot : isDot e = false := by
    unfold isDot
    rw [decide_eq_false_iff_not]
    exact fun hd => h.2 hd.1
  unfold named isNamed
  rw [h.1, hdot]
  rfl

section Scans

variable {g : Geometry} {agree : Prop} {d d' : Disk} {n : FatNode} {s : Place} {i : Nat}
  {f : FatName} {name : CStr} {taken : Buf → Bool} {a : Buf}

theorem Place.size_eq (hg : g.Usable) (s : Place) : s.size g = 32 * s.slots g := by
  have hmod : s.size g % 32 = 0 := by
    cases s with
    | root => exact hg.rootBytes_mod
    | clusters l =>
      show l.length * g.bytesPerCluster % 32 = 0
      rw [hg.bpc_eq, ← mul_assoc, Nat.mul_mod]
      simp
  unfold Place.slots
  omega

theorem NodeAt.slots_lt (hg : g.Usable) (h : NodeAt g d n s) : s.slots g < 134217727 := by
  have := (h.at 0).size_le hg
  unfold Place.slots
  omega

theorem NodeAt.nodup (hg : g.Usable) (h : NodeAt g d n s) : ∀ l, s = .clusters l → l.Nodup := by
  rintro l rfl
  exact Disk.IsChain.nodup hg h.chain

theorem byteAt_put (hnd : ∀ l, s = .clusters l → l.Nodup) (hpos : 0 < g.bytesPerCluster)
    {off o m : Nat} {buf : Buf} (ho : o < s.size g) : (d.put g s off buf m).byteAt g s o =
      if off ≤ o ∧ o < off + m then buf (o - off) else d.byteAt g s o := by
  cases s with
  | root =>
    show memcpy d.root off buf 0 m o = _
    unfold memcpy
    rw [zero_add]
    rfl
  | clusters l =>
    have hidx := div_lt_of_lt_size ho
    have hget := idxOf_getD (hnd l rfl) hidx
    have hmem : l.getD (o / g.bytesPerCluster) 0 ∈ l := by
      rw [getD_eq_getElem _ _ hidx]
      exact getElem_mem hidx
    have hsplit : o / g.bytesPerCluster * g.bytesPerCluster + o % g.bytesPerCluster = o := by
      rw [mul_comm]
      exact Nat.div_add_mod o _
    show (d.put g (.clusters l) off buf m).data _ _ = _
    rw [Disk.put_data_clusters, hget, hsplit]
    simp only [hmem, Nat.mod_lt _ hpos, true_and]
    rfl

theorem slot_put (hnd : ∀ l, s = .clusters l → l.Nodup) (hpos : 0 < g.bytesPerCluster) (e : Buf)
    {j : Nat} (hj : j < s.slots g) :
    (d.put g s (32 * i) e 32).slot g s j = if j = i then clip e else d.slot g s j := by
  funext k
  unfold Disk.slot
  by_cases hk : k < 32
  · rw [if_pos hk, byteAt_put hnd hpos (slot_in hj hk)]
    by_cases hji : j = i
    · subst hji
      rw [if_pos rfl, if_pos (by omega), clip_of_lt e hk]
      congr 1
      omega
    · rw [if_neg hji, if_neg (by omega), if_pos hk]
  · rw [if_neg hk]
    by_cases hji : j = i
    · rw [if_pos hji]
      exact (if_neg hk).symm
    · rw [if_neg hji, if_neg hk]

/-! ## Reading slots -/

/-- A scan of the directory at `s` returned `r`.  The disk is as before, and the node but
for its cursor. -/
def Scanned {α : Type} (g : Geometry) (d : Disk) (n : FatNode) (s : Place)
    (P : Except Stop α → Prop) (r : Except Stop α) (n' : FatNode) (d' : Disk) : Prop :=
  d' = d ∧ Moved n n' ∧ NodeAt g d n' s ∧ P r

theorem Moved.scan {α : Type} {m : FatM FatNode α} {n' : FatNode} {P : Except Stop α → Prop}
    (hm : Moved n n') (h : Does g agree m n' d (Scanned g d n' s P)) :
    Does g agree m n' d (Scanned g d n s P) :=
  h.mono fun _ _ _ ⟨hd, hm', hat, hr⟩ => ⟨hd, hm.trans hm', hat, hr⟩

section

variable (hg : g.Usable) (h : NodeAt g d n s)
include hg h

theorem ensures_readSlot (hi : i < s.slots g) :
    Does g agree (nodeRead g (32 * i) (fun _ => 0) 32) n d fun r n' d' =>
      r = .ok (32, d.slot g s i) ∧ d' = d ∧ Moved n n' ∧ NodeAt g d n' s := by
  have hfit : 32 * i + 32 ≤ s.size g := by
    rw [Place.size_eq hg]
    omega
  refine (ensures_nodeRead hg h _ hfit).mono ?_
  rintro r n' d' ⟨rfl, rfl, hm, hat⟩
  refine ⟨?_, rfl, hm, hat⟩
  congr 2
  funext j
  simp only [memcpy, Disk.slot, Nat.zero_le, true_and, zero_add, Nat.sub_zero]

theorem ensures_readSlot_end :
    Does g agree (nodeRead g (32 * s.slots g) (fun _ => 0) 32) n d fun r n' d' =>
      r = .ok (0, fun _ => 0) ∧ d' = d ∧ Moved n n' ∧ NodeAt g d n' s :=
  ensures_nodeRead_end hg h _ (Place.size_eq hg s).symm (by omega)

theorem ensures_readEntry (hi : i < s.slots g) :
    Does g agree (readEntry g (32 * i)) n d fun r n' d' =>
      r = .ok (d.slot g s i) ∧ d' = d ∧ Moved n n' ∧ NodeAt g d n' s := by
  refine .bind (.tryCatch ((ensures_readSlot hg h hi).mono ?_))
  rintro r n' d' ⟨rfl, rfl, hm, hat⟩
  exact .pure ⟨rfl, rfl, hm, hat⟩

theorem u32_next (hi : i < s.slots g) : u32 (32 * i + 32) = 32 * (i + 1) := by
  have := h.slots_lt hg
  rw [u32_of_lt (by omega)]
  omega

end

/-- What a scan makes of the entries it is shown. -/
def visit {τ : Type} (fn : Buf → CStr → Nat → τ → Bool × τ) : List (Nat × Buf) → τ → τ
  | [], t => t
  | (i, e) :: l, t =>
    match fn e (shortName e) (32 * i) t with
    | (true, t) => t
    | (false, t) => visit fn l t

/-- A scan shows `fn` the visible slots before the end, until it stops. -/
theorem ensures_forEachEntryFrom {τ : Type} (hg : g.Usable) (fn : Buf → CStr → Nat → τ → Bool × τ)
    (left : Nat) :
    ∀ (i : Nat) (t : τ) (n : FatNode), NodeAt g d n s → i ≤ s.slots g → s.slots g < left + i →
      (∀ j < i, d.slot g s j 0 ≠ entryEnd) →
      Does g agree (forEachEntryFrom g fn left (32 * i) t) n d (Scanned g d n s fun r =>
        r = .ok (visit fn (shownFrom (s.slots g) (d.slot g s) i) t)) := by
  induction left with
  | zero =>
    intro i t n _ hi hleft
    omega
  | succ left ih =>
    intro i t n h hi hleft hused
    rcases Nat.lt_or_eq_of_le hi with hlt | rfl
    · refine .bind (.tryCatch ((ensures_readSlot hg h hlt).mono ?_))
      rintro r n' d' ⟨rfl, rfl, hm, hat⟩
      show Does g agree (if 32 < 32 ∨ d'.slot g s i 0 = entryEnd then pure t else _) n' d' _
      by_cases hend : d'.slot g s i 0 = entryEnd
      · rw [if_pos (.inr hend)]
        exact .pure ⟨rfl, hm, hat, by rw [shownFrom_of_end hend]; rfl⟩
      · have hused' : ∀ j ≤ i, d'.slot g s j 0 ≠ entryEnd := fun j hj =>
          (Nat.lt_or_eq_of_le hj).elim (hused j) fun he => he ▸ hend
        have hrest : ∀ t, Does g agree
            (forEachEntryFrom g fn left (u32 (32 * i + 32)) t) n' d' (Scanned g d' n s fun r =>
              r = .ok (visit fn (shownFrom (s.slots g) (d'.slot g s) (i + 1)) t)) := by
          intro t
          rw [u32_next hg h hlt]
          exact hm.scan (ih (i + 1) t n' hat hlt (by omega)
            fun j hj => hused' j (Nat.lt_succ_iff.mp hj))
        rw [if_neg (by simp [hend]), shownFrom_step hlt hused']
        by_cases hvis : isVisible (d'.slot g s i) = true
        · simp only [hvis, Bool.not_true, Bool.false_eq_true, if_false, if_true,
            singleton_append, visit]
          rcases fn (d'.slot g s i) (shortName (d'.slot g s i)) (32 * i) t with ⟨stop, t'⟩
          cases stop with
          | true => exact .pure ⟨rfl, hm, hat, rfl⟩
          | false => exact hrest t'
        · simp only [hvis, Bool.not_false, Bool.false_eq_true, if_true, if_false, nil_append]
          exact hrest t
    · refine .bind (.tryCatch ((ensures_readSlot_end hg h).mono ?_))
      rintro r n' d' ⟨rfl, rfl, hm, hat⟩
      exact .pure ⟨rfl, hm, hat, by rw [shownFrom_of_ge le_rfl]; rfl⟩

theorem ensures_forEachEntry {τ : Type} (hg : g.Usable) (h : NodeAt g d n s)
    (fn : Buf → CStr → Nat → τ → Bool × τ) (t : τ) :
    Does g agree (forEachEntry g fn t) n d <| Scanned g d n s fun r =>
      r = .ok (visit fn (d.listing g s) t) := by
  have hslots := h.slots_lt hg
  exact ensures_forEachEntryFrom hg fn slotTurns 0 t n h (Nat.zero_le _)
    (by unfold slotTurns; omega) (fun j hj => absurd hj (Nat.not_lt_zero j))

/-- A slot a scan shows. -/
structure Found (g : Geometry) (d : Disk) (s : Place) (i : Nat) : Prop where
  lt : i < s.slots g
  used : ∀ j ≤ i, d.slot g s j 0 ≠ entryEnd
  visible : isVisible (d.slot g s i) = true

theorem Found.entryAt (h : Found g d s i) :
    entryAt (s.slots g) (d.slot g s) i = some (entryOf (d.slot g s i)) := by
  rw [entryAt_of_used h.lt h.used, named_of_visible h.visible]

theorem mem_listing {x : Nat × Buf} :
    x ∈ d.listing g s ↔ Found g d s x.1 ∧ d.slot g s x.1 = x.2 := by
  unfold Disk.listing
  rw [mem_shownFrom, shownAt_eq_some]
  exact ⟨fun h => ⟨⟨h.2.1, h.2.2.1, h.2.2.2.1⟩, h.2.2.2.2⟩,
    fun h => ⟨Nat.zero_le _, h.1.lt, h.1.used, h.1.visible, h.2⟩⟩

/-- Whether an entry answers to a name. -/
def answers (want : CStr) (e : Buf) : Bool :=
  namesEqualNocase (shortName e) want || match name11Of want with
    | .ok a => name11Equal e a
    | .error _ => false

theorem visit_matchName (want : CStr) (l : List (Nat × Buf)) : visit (matchName want) l none =
      (l.find? fun x => answers want x.2).map fun x => (32 * x.1, x.2) := by
  induction l with
  | nil => rfl
  | cons x l ih =>
    obtain ⟨i, e⟩ := x
    have hmatch : matchName want e (shortName e) (32 * i) none =
        if answers want e then (true, some (32 * i, e)) else (false, none) := rfl
    rw [visit, hmatch, find?_cons]
    cases answers want e with
    | true => rfl
    | false => exact ih

/-- `entry_find`: the first entry that answers to the name. -/
theorem ensures_entryFind_first (hg : g.Usable) (h : NodeAt g d n s) (name : CStr) :
    Does g agree (entryFind g name) n d <| Scanned g d n s fun r =>
      r = match (d.listing g s).find? fun x => answers name x.2 with
        | some x => .ok (32 * x.1, x.2)
        | none => .error (.rc .enoent) := by
  refine .bind ((ensures_forEachEntry hg h (matchName name) none).mono ?_)
  rintro r n' d' ⟨rfl, hm, hat, rfl⟩
  rw [visit_matchName]
  cases (d'.listing g s).find? fun x => answers name x.2 with
  | none => exact .throw ⟨rfl, hm, hat, rfl⟩
  | some x => exact .pure ⟨rfl, hm, hat, rfl⟩

/-- `entry_find`: a slot the scan shows, or none. -/
theorem ensures_entryFind (hg : g.Usable) (h : NodeAt g d n s) (name : CStr) :
    Does g agree (entryFind g name) n d <| Scanned g d n s fun r =>
      (∃ i, r = .ok (32 * i, d.slot g s i) ∧ Found g d s i) ∨ r = .error (.rc .enoent) := by
  refine (ensures_entryFind_first hg h name).mono ?_
  rintro r n' d' ⟨rfl, hm, hat, rfl⟩
  refine ⟨rfl, hm, hat, ?_⟩
  cases hfind : (d'.listing g s).find? fun x => answers name x.2 with
  | none => exact .inr rfl
  | some x =>
    obtain ⟨hfound, hslot⟩ := mem_listing.mp (mem_of_find?_eq_some hfind)
    exact .inl ⟨x.1, by rw [hslot], hfound⟩

/-! ## Choosing a name -/

/-- Whether a listing has an entry with these eleven bytes, the one at offset
`skip` passed over. -/
def takenIn (l : List (Nat × Buf)) (skip : Option Nat) (want : Buf) : Bool :=
  l.any fun x => decide (skip ≠ some (32 * x.1)) && name11Equal x.2 want

theorem visit_match11 (want : Buf) (skip : Option Nat) (l : List (Nat × Buf)) :
    visit (match11 want skip) l false = takenIn l skip want := by
  induction l with
  | nil => rfl
  | cons x l ih =>
    obtain ⟨i, e⟩ := x
    have hmatch : match11 want skip e (shortName e) (32 * i) false =
        if skip = some (32 * i) then (false, false)
        else if name11Equal e want then (true, true) else (false, false) := rfl
    unfold takenIn at ih ⊢
    rw [visit, hmatch, any_cons]
    by_cases hskip : skip = some (32 * i)
    · simpa [hskip] using ih
    · cases heq : name11Equal e want with
      | true => simp [hskip]
      | false => simpa [hskip, heq] using ih

theorem ensures_nameTaken (hg : g.Usable) (h : NodeAt g d n s) (want : Buf) (skip : Option Nat) :
    Does g agree (nameTaken g want skip) n d <| Scanned g d n s fun r =>
      r = .ok (takenIn (d.listing g s) skip want) := by
  refine (ensures_forEachEntry hg h (match11 want skip) false).mono ?_
  rintro r n' d' ⟨rfl, hm, hat, rfl⟩
  exact ⟨rfl, hm, hat, by rw [visit_match11]⟩

/-- A first byte an entry of a file or a directory may have. -/
def GoodFirst (b : UInt8) : Prop := b ≠ entryEnd ∧ b ≠ entryDeleted ∧ b ≠ 46

instance (b : UInt8) : Decidable (GoodFirst b) := inferInstanceAs (Decidable (_ ∧ _))

theorem nameChar_good (c : UInt8) : GoodFirst (nameChar c) := by
  have h : ∀ k < 256, GoodFirst (nameChar (.ofNat k)) := by decide +kernel
  have := h c.toNat c.toNat_lt
  rwa [UInt8.ofNat_toNat] at this

theorem splitName_base (h : splitName name = .ok f) : ∃ c rest, f.base = nameChar c :: rest := by
  have hbase : ∀ {base ext : List UInt8},
      (if base = [] then .error .einval
        else .ok ⟨base.map nameChar, ext.map nameChar⟩ : Except Errno FatName) = .ok f →
      ∃ c rest, f.base = nameChar c :: rest := by
    intro base ext h
    cases base with
    | nil => cases h
    | cons c rest =>
      cases h
      exact ⟨c, rest.map nameChar, rfl⟩
  exact hbase h

theorem alias11_good {c : UInt8} {rest : List UInt8}
    (h : f.base = nameChar c :: rest) (n : Nat) : GoodFirst (alias11 f n 0) := by
  have htake : ∀ k, 0 < k → ∀ tail, pack11 ((nameChar c :: rest).take k ++ tail) f.ext 0 =
      nameChar c := by
    intro k hk tail
    obtain ⟨k, rfl⟩ : ∃ j, k = j + 1 := ⟨k - 1, by omega⟩
    rfl
  unfold alias11
  rw [h, htake _ (by split <;> [omega; (split <;> omega)])]
  exact nameChar_good c

theorem pack11_good {c : UInt8} {rest : List UInt8}
    (h : f.base = nameChar c :: rest) : GoodFirst (pack11 f.base f.ext 0) := by
  rw [h]
  exact nameChar_good c

/-- The first free alias from number `n` on, `left` numbers at most. -/
def aliasFrom (taken : Buf → Bool) (f : FatName) : Nat → Nat → Option Buf
  | 0, _ => none
  | left + 1, n => if taken (alias11 f n) then aliasFrom taken f left (n + 1) else some (alias11 f n)

/-- The eleven bytes `make_entry_name` chooses, or none if all are taken. -/
def chosenName (taken : Buf → Bool) (f : FatName) : Option Buf :=
  if f.fits ∧ taken (pack11 f.base f.ext) = false then some (pack11 f.base f.ext)
  else aliasFrom taken f 999 1

theorem ensures_freeAlias (hg : g.Usable) (f : FatName) (skip : Option Nat) (left : Nat) :
    ∀ (k : Nat) (n : FatNode), NodeAt g d n s →
      Does g agree (freeAlias g f skip left k) n d (Scanned g d n s fun r =>
        r = match aliasFrom (takenIn (d.listing g s) skip) f left k with
          | some a => .ok a
          | none => .error (.rc .enospc)) := by
  induction left with
  | zero =>
    intro k n h
    exact .throw ⟨rfl, .refl n, h, rfl⟩
  | succ left ih =>
    intro k n h
    rw [aliasFrom]
    refine .bind ((ensures_nameTaken hg h _ skip).mono ?_)
    rintro r n' d' ⟨rfl, hm, hat, rfl⟩
    cases takenIn (d'.listing g s) skip (alias11 f k) with
    | true => exact hm.scan (ih (k + 1) n' hat)
    | false => exact .pure ⟨rfl, hm, hat, rfl⟩

/-- What `make_entry_name` returns. -/
def entryNameOf (taken : Buf → Bool) (name : CStr) : Except Stop Buf :=
  match splitName name with
  | .error e => .error (.rc e)
  | .ok f =>
    match chosenName taken f with
    | some a => .ok a
    | none => .error (.rc .enospc)

/-- `make_entry_name`: the name, or the first of its aliases, that no other
entry has. -/
theorem ensures_makeEntryName_first (hg : g.Usable) (h : NodeAt g d n s) (name : CStr)
    (skip : Option Nat) : Does g agree (makeEntryName g name skip) n d <| Scanned g d n s fun r =>
      r = entryNameOf (takenIn (d.listing g s) skip) name := by
  unfold makeEntryName entryNameOf
  cases splitName name with
  | error e => exact .throw ⟨rfl, .refl n, h, rfl⟩
  | ok f =>
    unfold chosenName
    dsimp only
    by_cases hfits : f.fits = true
    · rw [if_pos hfits]
      refine .bind ((ensures_nameTaken hg h _ skip).mono ?_)
      rintro r n' d' ⟨rfl, hm, hat, rfl⟩
      cases htaken : takenIn (d'.listing g s) skip (pack11 f.base f.ext) with
      | true =>
        rw [if_neg (by simp)]
        exact hm.scan (ensures_freeAlias hg f skip 999 1 n' hat)
      | false =>
        rw [if_pos ⟨hfits, rfl⟩]
        exact .pure ⟨rfl, hm, hat, rfl⟩
    · rw [if_neg hfits, if_neg (fun h => hfits h.1)]
      exact ensures_freeAlias hg f skip 999 1 n h

theorem aliasFrom_spec (left : Nat) : ∀ k, aliasFrom taken f left k = some a →
      taken a = false ∧ ∃ n, n < k + left ∧ a = alias11 f n := by
  induction left with
  | zero =>
    intro k h
    cases h
  | succ left ih =>
    intro k h
    rw [aliasFrom] at h
    split at h
    next =>
      obtain ⟨hfree, n, hn, ha⟩ := ih (k + 1) h
      exact ⟨hfree, n, by omega, ha⟩
    next hfree =>
      cases h
      exact ⟨Bool.eq_false_iff.mpr hfree, k, by omega, rfl⟩

theorem entryNameOf_ok (h : entryNameOf taken name = .ok a) :
    taken a = false ∧ ∃ f, splitName name = .ok f ∧
      ((f.fits = true ∧ a = pack11 f.base f.ext) ∨ ∃ n < 1000, a = alias11 f n) := by
  unfold entryNameOf at h
  cases hname : splitName name with
  | error e =>
    rw [hname] at h
    cases h
  | ok f =>
    rw [hname] at h
    dsimp only at h
    cases hchosen : chosenName taken f with
    | none =>
      rw [hchosen] at h
      cases h
    | some b =>
      rw [hchosen] at h
      cases h
      unfold chosenName at hchosen
      split at hchosen
      next hpack =>
        cases hchosen
        exact ⟨hpack.2, f, rfl, .inl ⟨hpack.1, rfl⟩⟩
      next =>
        obtain ⟨hfree, hn⟩ := aliasFrom_spec 999 1 hchosen
        exact ⟨hfree, f, rfl, .inr hn⟩

theorem entryNameOf_good (h : entryNameOf taken name = .ok a) : GoodFirst (a 0) := by
  obtain ⟨-, f, hf, hcases⟩ := entryNameOf_ok h
  obtain ⟨c, rest, hbase⟩ := splitName_base hf
  rcases hcases with ⟨-, rfl⟩ | ⟨k, -, rfl⟩
  · exact pack11_good hbase
  · exact alias11_good hbase k

/-- `make_entry_name`: eleven bytes for an entry, or an error. -/
theorem ensures_makeEntryName (hg : g.Usable) (h : NodeAt g d n s) (name : CStr)
    (skip : Option Nat) : Does g agree (makeEntryName g name skip) n d <| Scanned g d n s fun r =>
      (∃ a : Buf, r = .ok a ∧ GoodFirst (a 0)) ∨ ∃ e, r = .error (.rc e) := by
  refine (ensures_makeEntryName_first hg h name skip).mono ?_
  rintro r n' d' ⟨rfl, hm, hat, rfl⟩
  refine ⟨rfl, hm, hat, ?_⟩
  cases hr : entryNameOf (takenIn (d'.listing g s) skip) name with
  | ok a => exact .inl ⟨a, rfl, entryNameOf_good hr⟩
  | error e =>
    refine .inr ?_
    unfold entryNameOf at hr
    split at hr
    next => exact ⟨_, hr.symm⟩
    next =>
      split at hr
      next => cases hr
      next => exact ⟨_, hr.symm⟩

/-! ## Writing slots -/

theorem NodeAt.of_next (h : NodeAt g d n s) (he : d'.next = d.next) : NodeAt g d' n s := by
  cases s with
  | root => exact h
  | clusters l => exact .of_next h he

theorem yields_writeEntry (hg : g.Usable) (h : NodeAt g d n s) (hi : i < s.slots g) (e : Buf)
    (err : Errno) :
    Yields (onDisk g agree) (writeEntry g (32 * i) e err) n d () n (d.put g s (32 * i) e 32) := by
  have hfit : 32 * i + 32 ≤ s.size g := by
    rw [Place.size_eq hg]
    omega
  exact (Yields.tryCatch (yields_nodeWrite_inside hg h (syncEntry g) e (by omega) hfit
    fun _ => by omega)).bind Yields.pure

/-- `d'` is `d` with the slots from `a` up to `b` marked deleted. -/
structure Cleared (g : Geometry) (s : Place) (a b : Nat) (d d' : Disk) : Prop where
  next : d'.next = d.next
  within : Within s d d'
  slots : ∀ k < s.slots g, d'.slot g s k =
    if a ≤ k ∧ k < b then setByte (d.slot g s k) 0 entryDeleted else d.slot g s k

theorem clip_setByte_slot (b : UInt8) :
    clip (setByte (d.slot g s i) 0 b) = setByte (d.slot g s i) 0 b := by
  funext j
  unfold clip
  by_cases hj : j < 32
  · rw [if_pos hj]
  · rw [if_neg hj, setByte_ne _ (by omega)]
    exact (if_neg hj).symm

theorem ensures_slotsDeleteFrom (hg : g.Usable) (left : Nat) :
    ∀ (a : Nat) (n : FatNode) (d : Disk), NodeAt g d n s → a + left ≤ s.slots g →
      Does g agree (slotsDeleteFrom g left (32 * a)) n d fun r n' d' =>
        r = .ok () ∧ Moved n n' ∧ NodeAt g d' n' s ∧ Cleared g s a (a + left) d d' := by
  induction left with
  | zero =>
    intro a n d h _
    refine .pure ⟨rfl, .refl n, h, rfl, .refl s d, fun k _ => ?_⟩
    rw [if_neg (by omega)]
  | succ left ih =>
    intro a n d h ha
    have hlt : a < s.slots g := by omega
    refine .bind ((ensures_readEntry hg h hlt).mono ?_)
    rintro r n' d1 ⟨rfl, rfl, hm, hat⟩
    refine (yields_writeEntry hg hat hlt _ .eio).bind ?_
    generalize he : setByte (d1.slot g s a) 0 entryDeleted = e
    have hat' : NodeAt g (d1.put g s (32 * a) e 32) n' s := hat.of_next (Disk.put_next ..)
    rw [u32_next hg h hlt]
    refine (ih (a + 1) n' _ hat' (by omega)).mono ?_
    rintro r n'' d'' ⟨rfl, hm', hat'', hcl⟩
    refine ⟨rfl, hm.trans hm', hat'', hcl.next.trans (Disk.put_next ..),
      (Within.put s d1 _ e 32).trans hcl.within, fun k hk => ?_⟩
    rw [hcl.slots k hk, slot_put (h.nodup hg) (bpc_pos hg) e hk]
    by_cases hka : k = a
    · subst hka
      rw [if_neg (by omega), if_pos rfl, if_pos (by omega), ← he, clip_setByte_slot]
    · rw [if_neg hka]
      by_cases hin : a + 1 ≤ k ∧ k < a + 1 + left
      · rw [if_pos hin, if_pos (by omega)]
      · rw [if_neg hin, if_neg (by omega)]

theorem ensures_slotsDelete (hg : g.Usable) (h : NodeAt g d n s) {a b : Nat} (hab : a ≤ b)
    (hb : b < s.slots g) : Does g agree (slotsDelete g (32 * a) (32 * b)) n d fun r n' d' =>
      r = .ok () ∧ Moved n n' ∧ NodeAt g d' n' s ∧ Cleared g s a (b + 1) d d' := by
  unfold slotsDelete
  have hcount : (32 * b + 32 - 32 * a) / 32 = b + 1 - a := by omega
  rw [hcount]
  refine (ensures_slotsDeleteFrom hg (b + 1 - a) a n d h (by omega)).mono ?_
  rintro r n' d' ⟨hr, hm, hat, hcleared⟩
  rw [show a + (b + 1 - a) = b + 1 by omega] at hcleared
  exact ⟨hr, hm, hat, hcleared⟩

/-- Marked slots before the end say nothing any more, and the others what they
said. -/
theorem Cleared.listedAt {a b : Nat} (h : Cleared g s a b d d') (hb : b ≤ s.slots g)
    (hused : ∀ j < b, d.slot g s j 0 ≠ entryEnd) (j : Nat) : listedAt (s.slots g) (d'.slot g s) j =
      if a ≤ j ∧ j < b then none else listedAt (s.slots g) (d.slot g s) j := by
  have hzero : ∀ k < s.slots g, d'.slot g s k 0 = entryEnd ↔ d.slot g s k 0 = entryEnd := by
    intro k hk
    rw [h.slots k hk]
    by_cases hin : a ≤ k ∧ k < b
    · rw [if_pos hin, setByte_self]
      exact ⟨fun h => absurd h (by decide), fun h => absurd h (hused k hin.2)⟩
    · rw [if_neg hin]
  by_cases hj : j < s.slots g
  · have hiff : (∀ k ≤ j, d'.slot g s k 0 ≠ entryEnd) ↔ ∀ k ≤ j, d.slot g s k 0 ≠ entryEnd :=
      forall_congr' fun k => imp_congr_right fun hk => not_congr (hzero k (by omega))
    by_cases hin : a ≤ j ∧ j < b
    · have hu : ∀ k ≤ j, d'.slot g s k 0 ≠ entryEnd := hiff.mpr fun k hk => hused k (by omega)
      rw [if_pos hin, listedAt_of_used hj hu, h.slots j hj, if_pos hin]
      exact listed_deleted (setByte_self _ _ _)
    · have hsame : d'.slot g s j = d.slot g s j := by rw [h.slots j hj, if_neg hin]
      rw [if_neg hin]
      unfold Fat.listedAt
      rw [hsame]
      simp only [hiff]
  · rw [listedAt_of_ge (by omega), if_neg (by omega), listedAt_of_ge (by omega)]

/-! ## Long names -/

theorem ensures_lfnStartFrom (hg : g.Usable) (left : Nat) : ∀ n, NodeAt g d n s → left < s.slots g →
      Does g agree (lfnStartFrom g left (32 * left)) n d (Scanned g d n s fun r =>
        ∃ a, r = .ok (32 * a) ∧ a ≤ left ∧
          ∀ k, a ≤ k → k < left → d.slot g s k 11 = attrLongName) := by
  induction left with
  | zero =>
    intro n h _
    exact .pure ⟨rfl, .refl n, h, 0, rfl, le_rfl, fun k _ hk => by omega⟩
  | succ left ih =>
    intro n h hlt
    refine .bind ((ensures_readEntry hg h (by omega)).mono ?_)
    rintro r n' d' ⟨rfl, rfl, hm, hat⟩
    dsimp only
    by_cases hlong : d'.slot g s left 11 = attrLongName
    · rw [if_neg (by simp [hlong])]
      refine (ih n' hat (by omega)).mono ?_
      rintro r n'' d'' ⟨rfl, hm', hat', a, rfl, ha, hall⟩
      refine ⟨rfl, hm.trans hm', hat', a, rfl, by omega, fun k hak hk => ?_⟩
      rcases Nat.lt_succ_iff_lt_or_eq.mp hk with hlt' | rfl
      · exact hall k hak hlt'
      · exact hlong
    · rw [if_pos hlong]
      exact .pure ⟨rfl, hm, hat, left + 1, rfl, le_rfl, fun k h1 h2 => by omega⟩

/-- `lfn_start`: long-name slots only, back from an entry. -/
theorem ensures_lfnStart (hg : g.Usable) (h : NodeAt g d n s) (hi : i < s.slots g) :
    Does g agree (lfnStart g (32 * i)) n d <| Scanned g d n s fun r =>
      ∃ a, r = .ok (32 * a) ∧ a ≤ i ∧
        ∀ k, a ≤ k → k < i → d.slot g s k 11 = attrLongName := by
  unfold lfnStart
  rw [Nat.mul_div_cancel_left i (by omega)]
  exact ensures_lfnStartFrom hg i n h hi

/-- What is listed at each slot, with the entry at `i` gone. -/
structure Dropped (g : Geometry) (s : Place) (i : Nat) (d d' : Disk) : Prop where
  next : d'.next = d.next
  within : Within s d d'
  listed : ∀ j, listedAt (s.slots g) (d'.slot g s) j =
    if j = i then none else listedAt (s.slots g) (d.slot g s) j

theorem Dropped.entries (h : Dropped g s i d d') (j : Nat) : entryAt (s.slots g) (d'.slot g s) j =
      if j = i then none else entryAt (s.slots g) (d.slot g s) j := by
  rw [entryAt_eq_bind, h.listed, entryAt_eq_bind]
  split <;> rfl

/-- `entry_delete`: the entry goes, with the long name before it. -/
theorem ensures_entryDelete (hg : g.Usable) (h : NodeAt g d n s) (hi : i < s.slots g)
    (hused : ∀ j ≤ i, d.slot g s j 0 ≠ entryEnd) :
    Does g agree (entryDelete g (32 * i)) n d fun r n' d' =>
      r = .ok () ∧ Moved n n' ∧ NodeAt g d' n' s ∧ Dropped g s i d d' := by
  refine .bind ((ensures_lfnStart hg h hi).mono ?_)
  rintro r n' d' ⟨rfl, hm, hat, a, rfl, ha, hlong⟩
  refine (ensures_slotsDelete hg hat ha hi).mono ?_
  rintro r n'' d'' ⟨rfl, hm', hat', hcl⟩
  refine ⟨rfl, hm.trans hm', hat', hcl.next, hcl.within, fun j => ?_⟩
  rw [hcl.listedAt hi (fun k hk => hused k (by omega))]
  by_cases hji : j = i
  · rw [if_pos (by omega), if_pos hji]
  · rw [if_neg hji]
    by_cases hin : a ≤ j ∧ j < i + 1
    · -- a long-name slot listed nothing before
      rw [if_pos hin, listedAt_of_used (by omega) (fun k hk => hused k (by omega)),
        listed_longName (hlong j hin.1 (by omega))]
    · rw [if_neg hin]

/-- Slots of long names go, and every other slot lists what it listed. -/
structure Unnamed (g : Geometry) (s : Place) (i : Nat) (d d' : Disk) : Prop where
  next : d'.next = d.next
  within : Within s d d'
  listed : ∀ j, listedAt (s.slots g) (d'.slot g s) j = listedAt (s.slots g) (d.slot g s) j
  same : d'.slot g s i = d.slot g s i
  used : ∀ j ≤ i, d'.slot g s j 0 ≠ entryEnd

theorem Unnamed.entries (h : Unnamed g s i d d') (j : Nat) :
    entryAt (s.slots g) (d'.slot g s) j = entryAt (s.slots g) (d.slot g s) j := by
  rw [entryAt_eq_bind, h.listed, entryAt_eq_bind]

theorem ensures_dropLongName (hg : g.Usable) (h : NodeAt g d n s) (hi : i < s.slots g)
    (hused : ∀ j ≤ i, d.slot g s j 0 ≠ entryEnd) :
    Does g agree (dropLongName g (32 * i)) n d fun r n' d' =>
      r = .ok () ∧ Moved n n' ∧ NodeAt g d' n' s ∧ Unnamed g s i d d' := by
  refine .bind ((ensures_lfnStart hg h hi).mono ?_)
  rintro r n' d' ⟨rfl, hm, hat, a, rfl, ha, hlong⟩
  dsimp only
  rcases Nat.lt_or_eq_of_le ha with hlt | rfl
  · rw [if_pos (by omega), show 32 * i - 32 = 32 * (i - 1) by omega]
    refine (ensures_slotsDelete hg hat (by omega) (by omega)).mono ?_
    rw [show i - 1 + 1 = i by omega]
    rintro r n'' d'' ⟨rfl, hm', hat', hcl⟩
    refine ⟨rfl, hm.trans hm', hat', hcl.next, hcl.within, fun j => ?_, ?_, fun j hj => ?_⟩
    · rw [hcl.listedAt (by omega) (fun k hk => hused k (by omega))]
      by_cases hin : a ≤ j ∧ j < i
      · rw [if_pos hin, listedAt_of_used (by omega) (fun k hk => hused k (by omega)),
          listed_longName (hlong j hin.1 hin.2)]
      · rw [if_neg hin]
    · rw [hcl.slots i hi, if_neg (by omega)]
    · rw [hcl.slots j (by omega)]
      split
      · rw [setByte_self]
        decide
      · exact hused j hj
  · rw [if_neg (by omega)]
    exact .pure ⟨rfl, hm, hat, rfl, .refl s d', fun _ => rfl, rfl, hused⟩

end Scans

end ManiOS.Fat
