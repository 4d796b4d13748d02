import ManiOS.Dos.Chain

/-!
# What the memory services do

The services of DOS go through the chain of blocks.  Here is what each of them does to
the blocks that are in use (`held`), and when a request for memory is met: if a run of
free blocks that are neighbours is large enough (`freeRuns`).
-/

namespace ManiOS.Dos

open List Option

def held (l : List Mcb) : List Mcb := l.filter fun b => decide (b.owner ≠ 0)

/-- The sizes of the runs of free blocks, with `run` for one that has begun. -/
def runsFrom : Option Nat → List Mcb → List Nat
  | none, [] => []
  | some k, [] => [k]
  | none, b :: l => if b.owner = 0 then runsFrom (some b.size) l else runsFrom none l
  | some k, b :: l =>
    if b.owner = 0 then runsFrom (some (k + 1 + b.size)) l else k :: runsFrom none l

/-- The sizes of the largest possible runs of free blocks that are neighbours.  The headers
between them count. -/
def freeRuns (l : List Mcb) : List Nat := runsFrom none l

variable {mem mem' : Mem} {a p : Nat} {b : Mcb} {l l' : List Mcb} {g : Arena}

theorem held_cons_free (h : b.owner = 0) : held (b :: l) = held l := by
  rw [held, filter_cons_of_neg (by simp [h]), held]

theorem held_cons (h : b.owner ≠ 0) : held (b :: l) = b :: held l := by
  rw [held, filter_cons_of_pos (by simp [h]), held]

theorem held_append (l l' : List Mcb) : held (l ++ l') = held l ++ held l' := filter_append ..

theorem held_snoc_free (h : b.owner = 0) {size : Nat} : held (l ++ [{ b with size }]) = held l := by
  rw [held_append, held_cons_free (show ({ b with size } : Mcb).owner = 0 from h)]
  exact append_nil _

/-- A loop over the blocks goes past one of them. -/
theorem held_pass {pre rest : List Mcb} (h : held pre ++ held (b :: rest) = held l) :
    held (pre ++ [b]) ++ held rest = held l := by
  rw [held_append, append_assoc, ← held_append]
  exact h

theorem mem_held : b ∈ held l ↔ b ∈ l ∧ b.owner ≠ 0 := by
  rw [held, mem_filter, decide_eq_true_iff]

theorem absorb_eq (b : Mcb) (l : List Mcb) :
    ∃ size l', absorb b l = { b with size } :: l' ∧ l'.length ≤ l.length ∧ held l' = held l ∧
      runsFrom (some b.size) l = size :: freeRuns l' := by
  induction l generalizing b with
  | nil => exact ⟨b.size, [], rfl, le_rfl, rfl, rfl⟩
  | cons c l ih =>
    rw [absorb, runsFrom]
    by_cases hc : c.owner = 0
    · obtain ⟨size, l', hl', hle, hheld, hruns⟩ := ih { b with size := b.size + 1 + c.size }
      rw [if_pos hc, if_pos hc]
      exact ⟨size, l', hl', Nat.le_succ_of_le hle, hheld.trans (held_cons_free hc).symm, hruns⟩
    · rw [if_neg hc, if_neg hc]
      refine ⟨b.size, c :: l, rfl, le_rfl, rfl, ?_⟩
      rw [freeRuns, runsFrom, if_neg hc]

theorem cut_eq (w : Nat) (b : Mcb) (l : List Mcb) :
    ∃ l', cut w b l = { b with size := min w b.size } :: l' ∧ held l' = held l := by
  rw [cut]
  by_cases hw : b.size ≤ w
  · rw [if_pos hw, min_eq_right hw]
    exact ⟨l, rfl, rfl⟩
  · obtain ⟨size, l', hl', -, hheld, -⟩ := absorb_eq ⟨b.seg + 1 + w, 0, b.size - w - 1⟩ l
    rw [if_neg hw, min_eq_left (Nat.le_of_not_le hw)]
    refine ⟨_, rfl, ?_⟩
    rw [hl', held_cons_free rfl, hheld]

/-! ## Allocation -/

theorem join_free (h : Chain mem p (b :: l)) (hb : b.owner = 0) :
    ∃ mem' size l', mcbJoin arenaEnd p mem = some mem' ∧
      Chain mem' p ({ b with size } :: l') ∧ (∀ m < p, SameHeader m mem mem') ∧
      l'.length ≤ l.length ∧ held l' = held l ∧ freeRuns (b :: l) = size :: freeRuns l' := by
  have hlen := h.length_le
  have hsmall := h.bounds.2
  rw [length_cons] at hlen
  obtain ⟨mem', hmem', hchain, hframe⟩ := mcbJoin_spec arenaEnd (by omega) h
  obtain ⟨size, l', hl', hle, hheld, hruns⟩ := absorb_eq b l
  rw [hl'] at hchain
  refine ⟨mem', size, l', hmem', hchain, fun m hm => hframe m (by omega) (by omega), hle, hheld, ?_⟩
  rw [freeRuns, runsFrom, if_pos hb, hruns]

def Adds (l l' : List Mcb) (b : Mcb) : Prop :=
  ∃ h1 h2, held l = h1 ++ h2 ∧ held l' = h1 ++ b :: h2

theorem Before.own {mem₀ : Mem} {pre : List Mcb} {w owner : Nat} (hpre : Before mem₀ a pre p)
    (hframe : ∀ m < p, SameHeader m mem₀ mem) (h : Chain mem p (b :: l')) (ho : owner ≠ 0)
    (ho' : owner < 65536) (hheld : held pre ++ held l' = held l) :
    ∃ mem' l₁, mcbSplit p w mem = some mem' ∧ Chain (wr16 p 1 owner mem') a l₁ ∧
      u16 (p + 1) = b.seg + 1 ∧ b.seg < arenaEnd ∧ Adds l l₁ ⟨b.seg, owner, min w b.size⟩ := by
  have hbounds := h.bounds
  obtain ⟨mem', hmem', hchain, hframe₁⟩ := mcbSplit_spec w h
  obtain ⟨rest, hrest, hheld'⟩ := cut_eq w b l'
  rw [hrest] at hchain
  obtain ⟨hchain', hframe₂⟩ := hchain.setOwner ho'
  have hpre' := (hpre.frame fun m hm =>
    ((hframe m hm).trans (hframe₁ m hm)).trans (hframe₂ m (by omega) (by omega))).1
  refine ⟨mem', _, hmem', hpre'.append hchain', ?_, ?_, held pre, held l', hheld.symm, ?_⟩
  · rw [h.1]
    simp only [u16, arenaEnd] at *
    omega
  · rw [h.1]
    omega
  · rw [held_append, held_cons ho, hheld']

/-- The largest of the runs that a loop has seen. -/
def Largest (seen : List Nat) (largest : Nat) : Prop :=
  (∀ k ∈ seen, k ≤ largest) ∧ (largest ∈ seen ∨ seen = [] ∧ largest = 0)

theorem Largest.snoc {seen : List Nat} {largest size : Nat} (h : Largest seen largest) :
    Largest (seen ++ [size]) (if largest < size then size else largest) := by
  obtain ⟨hle, hor⟩ := h
  split
  next hlt =>
    exact ⟨forall_mem_append.mpr ⟨fun k hk => le_trans (hle k hk) (le_of_lt hlt),
      forall_mem_singleton.mpr le_rfl⟩, .inl (mem_append_right _ (mem_singleton_self _))⟩
  next hge =>
    refine ⟨forall_mem_append.mpr ⟨hle, forall_mem_singleton.mpr (not_lt.mp hge)⟩, .inl ?_⟩
    · rcases hor with hmem | ⟨rfl, rfl⟩
      · exact mem_append_left _ hmem
      · have : size = 0 := by omega
        rw [this]
        exact mem_singleton_self _

variable (h : Chain g.mem g.arenaSeg l) (hseg : g.arenaSeg < arenaEnd)
include h hseg

/-- `AH=48h`: the first run that is large enough is used, or there is none. -/
theorem alloc_spec (hpsp : g.psp ≠ 0) (hpsp' : g.psp < 65536) (r : Regs) :
    ∃ r' mem', dosMemory 0x48 r g = some (r', mem') ∧ ∃ l', Chain mem' g.arenaSeg l' ∧
      ((r'.cf = false ∧ (∃ k ∈ freeRuns l, r.bx ≤ k) ∧
          ∃ m, Adds l l' ⟨m, g.psp, r.bx⟩ ∧ r'.ax = m + 1) ∨
        (r'.cf = true ∧ (r.bx ≠ 0 → ∀ k ∈ freeRuns l, k < r.bx) ∧
          Largest (freeRuns l) r'.bx ∧ held l' = held l)) := by
  refine eachBlock_arena (fun pre largest rest => held pre ++ held rest = held l ∧
    ∃ seen, freeRuns l = seen ++ freeRuns rest ∧ (r.bx ≠ 0 → ∀ k ∈ seen, k < r.bx) ∧
      Largest seen largest) ?_ ?_ h hseg ⟨rfl, [], rfl, fun _ _ hk => (not_mem_nil hk).elim,
      fun _ hk => (not_mem_nil hk).elim, .inr ⟨rfl, rfl⟩⟩
  · rintro pre largest mem p c rest hpre hchain ⟨hheld, seen, hruns, hseen, hlargest⟩
    rw [memoryAt, hchain.2.1.2.1]
    by_cases hc : c.owner = 0
    · obtain ⟨mem', size, rest', hmem', hchain', hframe, hle, hheld', hruns'⟩ := join_free hchain hc
      rw [hruns'] at hruns
      rw [held_cons_free hc, ← hheld'] at hheld
      rw [if_pos ⟨rfl, hc⟩, hmem', bind_some]
      rw [hchain'.2.1.2.2]
      by_cases hfit : r.bx ≠ 0 ∧ r.bx ≤ size
      · obtain ⟨mem'', l'', hmem'', hchain'', hax, -, hadds⟩ :=
          hpre.own (w := r.bx) hframe hchain' hpsp hpsp' hheld
        rw [min_eq_left hfit.2] at hadds
        refine .inl ⟨_, _, by rw [if_pos hfit, hmem'']; rfl, _, hchain'',
          .inl ⟨rfl, ⟨size, ?_, hfit.2⟩, c.seg, hadds, hax⟩⟩
        rw [hruns]
        exact mem_append_right _ mem_cons_self
      · refine .inr ⟨_, mem', { c with size }, rest', by rw [if_neg hfit], hchain', hframe, hle,
          ?_, seen ++ [size], ?_, fun hne => forall_mem_append.mpr ⟨hseen hne, ?_⟩, hlargest.snoc⟩
        · rw [held_snoc_free hc]
          exact hheld
        · rw [append_assoc]
          exact hruns
        · exact forall_mem_singleton.mpr (not_le.mp fun hle => hfit ⟨hne, hle⟩)
    · rw [if_neg fun hand => hc hand.2]
      refine .inr ⟨largest, mem, c, rest, rfl, hchain, fun _ _ => .refl, le_rfl,
        held_pass hheld, seen, ?_, hseen, hlargest⟩
      rw [hruns, freeRuns, runsFrom, if_neg hc, freeRuns]
  · rintro pre largest mem hchain ⟨hheld, seen, hruns, hseen, hlargest⟩
    rw [show freeRuns [] = [] from rfl, append_nil] at hruns
    rw [show held [] = [] from rfl, append_nil] at hheld
    rw [hruns]
    exact ⟨pre, hchain, .inr ⟨rfl, hseen, hlargest, hheld⟩⟩

/-- The loop of `AH=49h` and `AH=4Ah` passes the blocks before the one it is for. -/
theorem search_spec {ah : Nat} (hah : ah ≠ 0x48) (r : Regs) {Q : Regs → Mem → Prop}
    (hfound : ∀ pre mem p c rest, l = pre ++ c :: rest → Before mem g.arenaSeg pre p →
      Chain mem p (c :: rest) → p + 1 = r.es → c.owner ≠ 0 →
      ∃ r' mem', memoryAt ah r g.psp p 0 mem = some (.inl r', mem') ∧ Q r' mem')
    (hnone : (∀ c ∈ l, c.owner ≠ 0 → c.seg + 1 ≠ r.es) →
      ∀ mem, Chain mem g.arenaSeg l → Q { r with ax := 9, cf := true } mem) :
    ∃ r' mem', dosMemory ah r g = some (r', mem') ∧ Q r' mem' := by
  refine eachBlock_arena (fun pre largest rest => pre ++ rest = l ∧ largest = 0 ∧
    ∀ c ∈ pre, c.owner ≠ 0 → c.seg + 1 ≠ r.es) ?_ ?_ h hseg ⟨rfl, rfl, nofun⟩
  · rintro pre largest mem p c rest hpre hchain ⟨hl, rfl, hpast⟩
    by_cases hc : p + 1 = r.es ∧ c.owner ≠ 0
    · exact .inl (hfound pre mem p c rest hl.symm hpre hchain hc.1 hc.2)
    · refine .inr ⟨0, mem, c, rest, ?_, hchain, fun _ _ => .refl, le_rfl, ?_, rfl, ?_⟩
      · rw [memoryAt, hchain.2.1.2.1, if_neg fun hand => hah hand.1, if_neg fun hand => hc hand.2]
      · rw [append_assoc]
        exact hl
      · intro d hd hne
        rcases mem_append.mp hd with hd | hd
        · exact hpast d hd hne
        · rw [mem_singleton.mp hd] at hne ⊢
          rw [hchain.1]
          exact fun heq => hc ⟨heq, hne⟩
  · rintro pre largest mem hchain ⟨hl, rfl, hpast⟩
    rw [append_nil] at hl
    rw [hl] at hchain hpast
    rw [if_neg hah, if_neg hah]
    exact hnone hpast mem hchain

/-- `AH=49h`: the block becomes free. -/
theorem free_spec (r : Regs) :
    ∃ r' mem', dosMemory 0x49 r g = some (r', mem') ∧ ∃ l', Chain mem' g.arenaSeg l' ∧
      (held l' = held l ∨
        ∃ h1 h2 c, held l = h1 ++ c :: h2 ∧ held l' = h1 ++ h2 ∧ c.seg + 1 = r.es) := by
  refine search_spec h hseg (by decide) r (fun pre mem p c rest hl hpre hchain hes hc => ?_)
    fun _ mem hchain => ⟨l, hchain, .inl rfl⟩
  obtain ⟨hchain', hframe⟩ := hchain.setOwner (show 0 < 65536 by decide)
  have hsmall := hchain.bounds.2
  obtain ⟨mem', size, rest', hmem', hchain'', hframe', -, hheld, -⟩ := join_free hchain' rfl
  have hpre' := (hpre.frame fun m hm =>
    (hframe m (by omega) (by omega)).trans (hframe' m hm)).1
  refine ⟨{ r with cf := false }, mem', ?_, _, hpre'.append hchain'',
    .inr ⟨held pre, held rest, c, ?_, ?_, ?_⟩⟩
  · rw [memoryAt, hchain.2.1.2.1, if_neg fun hand => absurd hand.1 (by decide),
      if_pos ⟨by decide, hes, hc⟩, hmem']
    rfl
  · rw [hl, held_append, held_cons hc]
  · rw [held_append, held_cons_free rfl, hheld]
  · rw [hchain.1]
    exact hes

/-- `AH=4Ah`: the block keeps its place and its owner.  A program does not ask for no
memory at all at its own segment. -/
theorem resize_spec (r : Regs) (hown : r.es = g.psp → r.bx ≠ 0) :
    ∃ r' mem', dosMemory 0x4A r g = some (r', mem') ∧ ∃ l', Chain mem' g.arenaSeg l' ∧
      (held l' = held l ∨
        ∃ h1 h2 c size, held l = h1 ++ c :: h2 ∧ held l' = h1 ++ { c with size } :: h2) := by
  refine search_spec h hseg (by decide) r (fun pre mem p c rest hl hpre hchain hes hc => ?_)
    fun _ mem hchain => ⟨l, hchain, .inl rfl⟩
  have hlen := hchain.length_le
  have hsmall := hchain.bounds.2
  rw [length_cons] at hlen
  obtain ⟨mem1, hmem1, hchain₁, hframe₁⟩ := mcbJoin_spec arenaEnd (by omega) hchain
  obtain ⟨size, rest1, hl1, -, hheld1, -⟩ := absorb_eq c rest
  rw [hl1] at hchain₁
  have hbefore : ∀ m < p, SameHeader m mem mem1 := fun m hm => hframe₁ m (by omega) (by omega)
  rw [memoryAt, hchain.2.1.2.1, if_neg fun hand => absurd hand.1 (by decide),
    if_pos ⟨by decide, hes, hc⟩, hmem1, bind_some]
  rw [hchain₁.2.1.2.2]
  by_cases hroom : size < r.bx
  · rw [if_pos hroom]
    refine ⟨_, _, rfl, _, (hpre.frame hbefore).1.append hchain₁,
      .inr ⟨held pre, held rest, c, size, ?_, ?_⟩⟩
    · rw [hl, held_append, held_cons hc]
    · rw [held_append, held_cons (show ({ c with size } : Mcb).owner ≠ 0 from hc), hheld1]
  · rw [if_neg hroom]
    obtain ⟨mem2, hmem2, hchain₂, hframe₂⟩ := mcbSplit_spec r.bx hchain₁
    obtain ⟨rest2, hl2, hheld2⟩ := cut_eq r.bx { c with size } rest1
    have hmin : min r.bx size = r.bx := min_eq_left (not_lt.mp hroom)
    rw [hl2, hmin] at hchain₂
    have hchain₃ := ((hpre.frame fun m hm => (hbefore m hm).trans (hframe₂ m hm)).1).append hchain₂
    rw [hmem2]
    refine ⟨_, _, rfl, pre ++ { c with size := r.bx } :: rest2, ?_,
      .inr ⟨held pre, held rest, c, r.bx, ?_, ?_⟩⟩
    · split
      next hpsp =>
        have hend := hchain₂.bounds.1
        rw [arenaEnd] at hend
        have hmem : { c with size := r.bx } ∈ pre ++ { c with size := r.bx } :: rest2 :=
          mem_append_right _ mem_cons_self
        have hp : c.seg = p := hchain.1
        -- the word is in the first paragraph of the block, which has one
        rw [wr16, lin_succ (by omega) (by decide), lin_eq (by omega) (by decide)]
        refine (hchain₃.writeData hmem ?_ ?_).writeData hmem ?_ ?_ <;> dsimp only <;> omega
      next => exact hchain₃
    · rw [hl, held_append, held_cons hc]
    · rw [held_append, held_cons (show ({ c with size := r.bx } : Mcb).owner ≠ 0 from hc), hheld2,
        hheld1]

/-! ## EXEC -/

/-- `exec_alloc`: a new block that belongs to no program yet. -/
theorem execAlloc_spec (min max : Nat) :
    ∃ seg mem', execAlloc min max g = some (seg, mem') ∧ ∃ l', Chain mem' g.arenaSeg l' ∧
      (seg = 0 ∧ held l' = held l ∨
        ∃ m size, seg = m + 1 ∧ m < arenaEnd ∧ Adds l l' ⟨m, 0xFFFF, size⟩) := by
  refine eachBlock_arena (fun pre _ rest => held pre ++ held rest = held l) ?_ ?_ h hseg rfl
  · intro pre _ mem p c rest hpre hchain hheld
    rw [hchain.2.1.2.1]
    by_cases hc : c.owner = 0
    · obtain ⟨mem', size, rest', hmem', hchain', hframe, hle, hheld', -⟩ := join_free hchain hc
      rw [held_cons_free hc, ← hheld'] at hheld
      rw [if_pos hc, hmem', bind_some]
      rw [hchain'.2.1.2.2]
      by_cases hfit : min ≤ size
      · obtain ⟨mem'', l'', hmem'', hchain'', hown⟩ :=
          hpre.own (w := if size < max then size else max) hframe hchain'
            (show 0xFFFF ≠ 0 by decide) (by decide) hheld
        exact .inl ⟨_, _, by rw [if_pos hfit, hmem'']; rfl, _, hchain'', .inr ⟨_, _, hown⟩⟩
      · refine .inr ⟨_, mem', { c with size }, rest', by rw [if_neg hfit], hchain', hframe, hle, ?_⟩
        rw [held_snoc_free hc]
        exact hheld
    · rw [if_neg hc]
      exact .inr ⟨(), mem, c, rest, rfl, hchain, fun _ _ => .refl, le_rfl, held_pass hheld⟩
  · intro pre _ mem hchain hheld
    rw [show held [] = [] from rfl, append_nil] at hheld
    exact ⟨pre, hchain, .inl ⟨rfl, hheld⟩⟩

/-- What the first loop of `exec_release` does to a block. -/
def release (owner : Nat) (b : Mcb) : Mcb := if b.owner = owner then { b with owner := 0 } else b

omit h hseg in
theorem held_map_release (owner : Nat) (l : List Mcb) :
    held (l.map (release owner)) = (held l).filter fun b => decide (b.owner ≠ owner) := by
  induction l with
  | nil => rfl
  | cons b l ih =>
    rw [map_cons, release]
    by_cases ho : b.owner = owner
    · rw [if_pos ho, held_cons_free rfl, ih]
      by_cases hb : b.owner = 0
      · rw [held_cons_free hb]
      · rw [held_cons hb, filter_cons_of_neg (by simp [ho])]
    · rw [if_neg ho]
      by_cases hb : b.owner = 0
      · rw [held_cons_free hb, held_cons_free hb, ih]
      · rw [held_cons hb, held_cons hb, filter_cons_of_pos (by simp [ho]), ih]

theorem releaseBlocks_spec (owner : Nat) : ∃ u mem', releaseBlocks owner g = some (u, mem') ∧
      Chain mem' g.arenaSeg (l.map (release owner)) := by
  refine eachBlock_arena (fun pre _ rest => ∃ l1, l = l1 ++ rest ∧ pre = l1.map (release owner))
    ?_ ?_ h hseg ⟨[], rfl, rfl⟩
  · rintro pre _ mem p c rest - hchain ⟨l1, hl, hpre⟩
    rw [hchain.2.1.2.1]
    have hI : ∃ l2, l = l2 ++ rest ∧ pre ++ [release owner c] = l2.map (release owner) := by
      refine ⟨l1 ++ [c], ?_, ?_⟩
      · rw [hl, append_assoc]
        rfl
      · rw [map_append, hpre]
        rfl
    refine .inr ⟨(), _, release owner c, rest, rfl, ?_, ?_, Nat.le_refl _, hI⟩
    · rw [release]
      split
      next => exact (hchain.setOwner (by decide)).1
      next => exact hchain
    · intro m hm
      have hsmall := hchain.bounds.2
      split
      next => exact (hchain.setOwner (by decide)).2 m (by omega) (by omega)
      next => exact .refl
  · rintro pre _ mem hchain ⟨l1, hl, hpre⟩
    rw [append_nil] at hl
    rw [hl, ← hpre]
    exact hchain

theorem joinBlocks_spec : ∃ u mem', joinBlocks g = some (u, mem') ∧
      ∃ l', Chain mem' g.arenaSeg l' ∧ held l' = held l := by
  refine eachBlock_arena (fun pre _ rest => held pre ++ held rest = held l) ?_ ?_ h hseg rfl
  · intro pre _ mem p c rest _ hchain hheld
    rw [hchain.2.1.2.1]
    by_cases hc : c.owner = 0
    · obtain ⟨mem', size, rest', hmem', hchain', hframe, hle, hheld', -⟩ := join_free hchain hc
      rw [held_cons_free hc, ← hheld'] at hheld
      refine .inr ⟨(), mem', { c with size }, rest', by rw [if_pos hc, hmem']; rfl, hchain',
        hframe, hle, ?_⟩
      rw [held_snoc_free hc]
      exact hheld
    · exact .inr ⟨(), mem, c, rest, by rw [if_neg hc], hchain, fun _ _ => .refl, le_rfl,
        held_pass hheld⟩
  · intro pre _ mem hchain hheld
    rw [show held [] = [] from rfl, append_nil] at hheld
    exact ⟨pre, hchain, hheld⟩

/-- `exec_release`: the blocks of the owner are free, and no others. -/
theorem execRelease_spec (owner : Nat) :
    ∃ mem', execRelease owner g = some mem' ∧ ∃ l', Chain mem' g.arenaSeg l' ∧
      held l' = (held l).filter fun b => decide (b.owner ≠ owner) := by
  obtain ⟨_, mem1, hmem1, hchain₁⟩ := releaseBlocks_spec h hseg owner
  obtain ⟨_, mem2, hmem2, l', hchain₂, hheld⟩ :=
    joinBlocks_spec (g := { g with mem := mem1 }) hchain₁ hseg
  refine ⟨mem2, ?_, l', hchain₂, hheld.trans (held_map_release owner l)⟩
  rw [execRelease, hmem1, bind_some]
  dsimp only
  rw [hmem2]
  rfl

end ManiOS.Dos
