import ManiOS.Dos.Machine
import ManiOS.Lib.Runs

/-!
# The arena over whole runs

Whatever the programs do, short of writing to block headers, the blocks fill the arena,
and a block in use stays where it is and whose it is until it is freed.

There are two exceptions.  `AH=4Ah` for the block of the running program writes the new end
of the block to the PSP.  If the block is to have no paragraph at all, the PSP is where
the header of the next block has just been made.  And EXEC pushes a frame on the stack that
the new program's file asks for, wherever that is.
-/

namespace ManiOS.Dos

open Function (update)
open List Option

/-- The memory as `dos_build_psp` leaves it, for a program that the loader has put below
segment `limit`. -/
def Built (s : Machine) : Prop :=
  ∃ limit mem, 0x1010 ≤ limit ∧ limit ≤ arenaEnd ∧ s.mem = buildArena 0x1000 limit mem ∧
    s.arenaSeg = 0xFFF ∧ s.proc.psp = 0x1000 ∧ s.parents = []

/-- A byte is in no block header. -/
def OffHeaders (l : List Mcb) (x : Nat) : Prop := ∀ b ∈ l, x / 16 = b.seg → 5 ≤ x % 16

/-- What programs may do: they do not write to block headers. -/
def Allowed (s : Machine) : Machine.Action → Prop
  | .memory ah => ah = 0x48 ∨ ah = 0x49 ∨ ah = 0x4A
  | .ret => s.parents ≠ []
  | .poke x _ => ∀ l, Chain s.mem s.arenaSeg l → OffHeaders l x
  | _ => True

/-- The next word on the stack is in none. -/
def PushesOff (l : List Mcb) (s : Machine) : Prop :=
  let x := lin s.proc.cpu.ss (u16 (s.proc.cpu.sp + 65534))
  OffHeaders l x ∧ OffHeaders l ((x + 1) % memSize)

/-- A program does not give up all of the block that it is in, and starts none whose stack is
on a block header. -/
def KeepsOwn (s : Machine) : Machine.Action → Prop
  | .memory ah => ah = 0x4A → s.regs.es = s.proc.psp → s.regs.bx ≠ 0
  | .exec q => ∀ s', s.launch q = some (true, s') → ∀ l, Chain s'.mem s'.arenaSeg l →
      PushesOff l s' ∧ PushesOff l (s'.push16 s'.proc.cpu.flags) ∧
        PushesOff l ((s'.push16 s'.proc.cpu.flags).push16 s'.proc.cpu.cs)
  | _ => True

def RunStep (a : Machine.Action) (s s' : Machine) : Prop :=
  Allowed s a ∧ KeepsOwn s a ∧ s.step a = some s'

def Frees (s : Machine) (b : Mcb) : Machine.Action → Prop
  | .memory ah => ah = 0x49 ∧ b.seg + 1 = s.regs.es
  | .ret => b.owner = s.proc.psp
  | _ => False

/-- The blocks in use stay, but for those that a step frees. -/
def Stays (s : Machine) (a : Machine.Action) (l l' : List Mcb) : Prop :=
  ∀ b ∈ held l, Frees s b a ∨ ∃ c ∈ held l', c.seg = b.seg ∧ c.owner = b.owner

def Segment (psp : Nat) : Prop := 0 < psp ∧ psp ≤ arenaEnd

/-- What holds in a run. -/
structure Inv (s : Machine) (l : List Mcb) : Prop where
  chain : Chain s.mem s.arenaSeg l
  above : 16 ≤ s.arenaSeg
  below : s.arenaSeg < arenaEnd
  psp : Segment s.proc.psp
  parents : ∀ p ∈ s.parents, Segment p.psp
  owners : ∀ b ∈ held l, b.owner ≤ arenaEnd

variable {s s' : Machine} {l l' : List Mcb} {mem : Mem} {ah : Nat} {psp : Nat}
  {new l1 l2 : List Mcb} {b c : Mcb}

theorem Segment.lt (h : Segment psp) : psp < 65536 := lt_of_le_of_lt h.2 (by decide)

/-! ## The start -/

theorem buildArena_chain {limit : Nat} (mem : Mem) (hpsp : 0 < psp) (hlo : psp ≤ limit)
    (hhi : limit ≤ arenaEnd) :
    ∃ l, Chain (buildArena psp limit mem) (psp - 1) l ∧ ∀ b ∈ held l, b.owner = psp := by
  have hlim : arenaEnd < 65536 := by decide
  have hsum : psp - 1 + 1 + (limit - psp) = limit := by omega
  rw [buildArena]
  by_cases hlt : limit < arenaEnd
  · rw [if_pos hlt, if_pos hlt]
    refine ⟨[⟨psp - 1, psp, limit - psp⟩, ⟨limit, 0, arenaEnd - limit - 1⟩], ⟨rfl, ?_, ?_⟩, ?_⟩
    · have hframe : ∀ mem, SameHeader (psp - 1) mem (wr16 limit 3 (arenaEnd - limit - 1)
          (wr16 limit 1 0 (wr8 limit 0 lastBlock mem))) := fun mem =>
        ((sameHeader_wr8 (by omega) (by omega) (by decide) (by omega)).trans
          (sameHeader_wr16 (by omega) (by omega) (by decide) (by omega))).trans
          (sameHeader_wr16 (by omega) (by omega) (by decide) (by omega))
      dsimp only
      exact (header_new (by omega) (by omega) (by omega)).congr (hframe _)
    · rw [hsum]
      refine ⟨rfl, header_new (by omega) (by decide) (by omega), ?_⟩
      show limit + 1 + (arenaEnd - limit - 1) = arenaEnd
      omega
    · intro b hb
      rw [held_cons (by dsimp only; omega)] at hb
      rw [mem_singleton.mp hb]
  · rw [if_neg hlt, if_neg hlt]
    refine ⟨[⟨psp - 1, psp, limit - psp⟩], ⟨rfl, ?_, ?_⟩, ?_⟩
    · exact header_new (by omega) (by omega) (by omega)
    · show psp - 1 + 1 + (limit - psp) = arenaEnd
      omega
    · intro b hb
      rw [held_cons (by dsimp only; omega)] at hb
      rw [mem_singleton.mp hb]

theorem Built.inv (h : Built s) : ∃ l, Inv s l := by
  obtain ⟨limit, mem, hlo, hhi, hmem, hseg, hpsp, hparents⟩ := h
  obtain ⟨l, hchain, howners⟩ := buildArena_chain mem (show 0 < 0x1000 by decide) (by omega) hhi
  refine ⟨l, ?_, ?_, ?_, ?_, ?_, ?_⟩
  · rw [hmem, hseg]
    exact hchain
  · rw [hseg]
    decide
  · rw [hseg]
    decide
  · rw [hpsp]
    exact ⟨by decide, by decide⟩
  · rw [hparents]
    exact nofun
  · intro b hb
    rw [howners b hb]
    decide

/-- A step that changes neither the memory nor whose turn it is. -/
def SameArena (s s' : Machine) : Prop :=
  s'.mem = s.mem ∧ s'.arenaSeg = s.arenaSeg ∧ s'.proc.psp = s.proc.psp ∧ s'.parents = s.parents

theorem Inv.congr (h : Inv s l) (hs : SameArena s s') : Inv s' l := by
  obtain ⟨hmem, hseg, hpsp, hparents⟩ := hs
  refine ⟨?_, ?_, ?_, ?_, ?_, h.owners⟩
  · rw [hmem, hseg]
    exact h.chain
  · rw [hseg]
    exact h.above
  · rw [hseg]
    exact h.below
  · rw [hpsp]
    exact h.psp
  · rw [hparents]
    exact h.parents

/-! ## The memory services -/

theorem Stays.of_subset {a : Machine.Action} (h : ∀ b ∈ held l, b ∈ held l') : Stays s a l l' :=
  fun b hb => .inr ⟨b, h b hb, rfl, rfl⟩

theorem mem_adds (h : Adds l l' b) : c ∈ held l' ↔ c ∈ held l ∨ c = b := by
  obtain ⟨h1, h2, hl, hl'⟩ := h
  rw [hl, hl', mem_append, mem_append, mem_cons]
  tauto

/-- What is left to show after a memory service. -/
theorem Inv.memory {r' : Regs} {mem' : Mem} (h : Inv s l)
    (hmem : dosMemory ah s.regs s.arena = some (r', mem')) (hchain : Chain mem' s.arenaSeg l')
    (howners : ∀ b ∈ held l', b.owner ≤ arenaEnd) (hstays : Stays s (.memory ah) l l') :
    ∃ s', s.memory ah = some s' ∧ ∃ l', Inv s' l' ∧ Stays s (.memory ah) l l' := by
  refine ⟨_, by rw [Machine.memory, hmem]; rfl, l', ?_, hstays⟩
  exact ⟨hchain, h.above, h.below, h.psp, h.parents, howners⟩

theorem memory_spec (h : Inv s l) (ha : Allowed s (.memory ah)) (hk : KeepsOwn s (.memory ah)) :
    ∃ s', s.memory ah = some s' ∧ ∃ l', Inv s' l' ∧ Stays s (.memory ah) l l' := by
  rcases ha with rfl | rfl | rfl
  · obtain ⟨r', mem', hmem, l', hchain, ⟨-, -, m, hadds, -⟩ | ⟨-, -, -, hheld⟩⟩ :=
      alloc_spec (g := s.arena) h.chain h.below (ne_of_gt h.psp.1) h.psp.lt s.regs
    · have howners : ∀ b ∈ held l', b.owner ≤ arenaEnd := by
        intro b hb
        rcases (mem_adds hadds).mp hb with hb | rfl
        · exact h.owners b hb
        · exact h.psp.2
      exact h.memory hmem hchain howners (.of_subset fun b hb => (mem_adds hadds).mpr (.inl hb))
    · exact h.memory hmem hchain (by rw [hheld]; exact h.owners)
        (.of_subset fun b hb => by rw [hheld]; exact hb)
  · obtain ⟨r', mem', hmem, l', hchain, hheld | ⟨h1, h2, c, hl, hl', hes⟩⟩ :=
      free_spec (g := s.arena) h.chain h.below s.regs
    · exact h.memory hmem hchain (by rw [hheld]; exact h.owners)
        (.of_subset fun b hb => by rw [hheld]; exact hb)
    · have howners : ∀ b ∈ held l', b.owner ≤ arenaEnd := by
        intro b hb
        refine h.owners b ?_
        rw [hl', mem_append] at hb
        rw [hl, mem_append]
        tauto
      refine h.memory hmem hchain howners fun b hb => ?_
      rw [hl, mem_append, mem_cons] at hb
      rw [hl']
      rcases hb with hb | rfl | hb
      · exact .inr ⟨b, mem_append_left _ hb, rfl, rfl⟩
      · exact .inl ⟨rfl, hes⟩
      · exact .inr ⟨b, mem_append_right _ hb, rfl, rfl⟩
  · obtain ⟨r', mem', hmem, l', hchain, hheld | ⟨h1, h2, c, size, hl, hl'⟩⟩ :=
      resize_spec (g := s.arena) h.chain h.below s.regs (hk rfl)
    · exact h.memory hmem hchain (by rw [hheld]; exact h.owners)
        (.of_subset fun b hb => by rw [hheld]; exact hb)
    · have hc : c ∈ held l := by
        rw [hl]
        exact mem_append_right _ mem_cons_self
      have howners : ∀ b ∈ held l', b.owner ≤ arenaEnd := by
        intro b hb
        rw [hl', mem_append, mem_cons] at hb
        rcases hb with hb | rfl | hb
        · exact h.owners b (by rw [hl]; exact mem_append_left _ hb)
        · exact h.owners c hc
        · exact h.owners b (by rw [hl]; exact mem_append_right _ (mem_cons_of_mem _ hb))
      refine h.memory hmem hchain howners fun b hb => .inr ?_
      rw [hl, mem_append, mem_cons] at hb
      rw [hl']
      rcases hb with hb | rfl | hb
      · exact ⟨b, mem_append_left _ hb, rfl, rfl⟩
      · exact ⟨_, mem_append_right _ mem_cons_self, rfl, rfl⟩
      · exact ⟨b, mem_append_right _ (mem_cons_of_mem _ hb), rfl, rfl⟩

/-! ## EXEC -/

/-- The blocks in use are those of `l` and new ones that belong to no program yet. -/
def Fresh (new l l1 : List Mcb) : Prop :=
  (∀ b, b ∈ held l1 ↔ b ∈ held l ∨ b ∈ new) ∧ ∀ b ∈ new, b.owner = 0xFFFF

theorem Fresh.refl : Fresh [] l l := ⟨fun b => by simp, nofun⟩

theorem Fresh.adds (h : Fresh new l l1) (hb : b.owner = 0xFFFF)
    (ha : Adds l1 l2 b) : Fresh (b :: new) l l2 := by
  refine ⟨fun c => ?_, ?_⟩
  · rw [mem_adds ha, h.1, mem_cons]
    tauto
  · rintro c (_ | ⟨_, hc⟩)
    · exact hb
    · exact h.2 c hc

/-- What EXEC leaves before the frame. -/
def Launched (q : Machine.Request) (s : Machine) : Bool × Machine → Prop
  | (false, s') => s'.proc.handleDrive = s.proc.handleDrive ∧ s'.parents = s.parents ∧
      s'.proc.psp = s.proc.psp
  | (true, s') => ∃ handles childEnv child mem, s' = s.enter q.entry handles childEnv child mem

theorem rollback_cases {q : Machine.Request} {error : Nat} {p : Bool × Machine}
    (h : s.rollback error mem = some p) : Launched q s p := by
  obtain ⟨mem', -, rfl⟩ := map_eq_some_iff.mp h
  exact ⟨rfl, rfl, rfl⟩

theorem launch_cases {q : Machine.Request} {p : Bool × Machine} (h : s.launch q = some p) :
    Launched q s p := by
  rw [Machine.launch] at h
  split at h
  next =>
    cases h
    exact ⟨rfl, rfl, rfl⟩
  next =>
    split at h
    next => exact rollback_cases h
    next handles _ =>
      obtain ⟨⟨childEnv, mem1⟩, -, h⟩ := bind_eq_some_iff.mp h
      dsimp only at h
      split at h
      next => exact rollback_cases h
      next =>
        obtain ⟨⟨child, mem2⟩, -, h⟩ := bind_eq_some_iff.mp h
        split at h
        next => exact rollback_cases h
        next =>
          split at h
          next => exact rollback_cases h
          next =>
            cases h
            exact ⟨handles, childEnv, child, mem2, rfl⟩

variable (h : Inv s l)
include h

theorem rollback_spec (hchain : Chain mem s.arenaSeg l1) (hfresh : Fresh new l l1) (error : Nat) :
    ∃ ok s', s.rollback error mem = some (ok, s') ∧
      ∃ l', Inv s' l' ∧ ∀ b ∈ held l, b ∈ held l' := by
  obtain ⟨mem', hmem', l', hchain', hheld⟩ :=
    execRelease_spec (g := { s.arena with mem }) hchain h.below 0xFFFF
  have hlim : arenaEnd < 0xFFFF := by decide
  refine ⟨_, .fail error { s with mem := mem' }, by rw [Machine.rollback, hmem']; rfl, l',
    ⟨hchain', h.above, h.below, h.psp, h.parents, fun b hb => ?_⟩, fun b hb => ?_⟩
  · rw [hheld, mem_filter, decide_eq_true_iff, hfresh.1] at hb
    rcases hb with ⟨hb | hb, hne⟩
    · exact h.owners b hb
    · exact absurd (hfresh.2 b hb) hne
  · have := h.owners b hb
    rw [hheld, mem_filter, decide_eq_true_iff, hfresh.1]
    exact ⟨.inl hb, by omega⟩

/-- After both blocks were given to the new program, no block belongs to no program. -/
theorem owner_le {e : Mcb} (hfresh : Fresh [c, e] l l2) (hc : c.seg < arenaEnd) (hb : b ∈ l2)
    (hne : (give e.seg (c.seg + 1) (give c.seg (c.seg + 1) b)).owner ≠ 0) :
    (give e.seg (c.seg + 1) (give c.seg (c.seg + 1) b)).owner ≤ arenaEnd := by
  rw [give, give_seg] at hne ⊢
  split at hne
  next hbe =>
    rw [if_pos hbe]
    exact hc
  next hbe =>
    rw [give] at hne ⊢
    split at hne
    next hbc =>
      rw [if_neg hbe, if_pos hbc]
      exact hc
    next hbc =>
      rw [if_neg hbe, if_neg hbc]
      rcases (hfresh.1 b).mp (mem_held.mpr ⟨hb, hne⟩) with hold | hnew
      · exact h.owners b hold
      · rcases mem_cons.mp hnew with rfl | hnew
        · exact absurd rfl hbc
        · rw [mem_singleton.mp hnew] at hbe
          exact absurd rfl hbe

theorem enter_spec {e : Mcb} (hchain : Chain mem s.arenaSeg l2)
    (hfresh : Fresh [c, e] l l2) (hc : c.seg < arenaEnd) (entry : Cpu) (handles : List Int) :
    ∃ l', Inv (s.enter entry handles (e.seg + 1) (c.seg + 1) mem) l' ∧
      ∀ b ∈ held l, b ∈ held l' := by
  have hlim : arenaEnd < 0xFFFF := by decide
  have hcl : c ∈ l2 := (mem_held.mp ((hfresh.1 c).mpr (.inr (by simp)))).1
  have hel : e ∈ l2 := (mem_held.mp ((hfresh.1 e).mpr (.inr (by simp)))).1
  have hchain₁ := hchain.give hcl (show c.seg + 1 < 65536 by omega)
  have hchain₂ := hchain₁.give (mem_map_of_mem hel) (show c.seg + 1 < 65536 by omega)
  rw [give_seg] at hchain₂
  refine ⟨_, ⟨hchain₂, h.above, h.below, ⟨Nat.succ_pos _, hc⟩, ?_, ?_⟩, ?_⟩
  · rintro p (_ | ⟨_, hp⟩)
    · exact h.psp
    · exact h.parents p hp
  · intro b hb
    obtain ⟨hb, hne⟩ := mem_held.mp hb
    obtain ⟨b1, hb1, rfl⟩ := mem_map.mp hb
    obtain ⟨b2, hb2, rfl⟩ := mem_map.mp hb1
    exact owner_le h hfresh hc hb2 hne
  · intro b hb
    have hb2 := (hfresh.1 b).mpr (.inl hb)
    have hother : ∀ d, d.owner = 0xFFFF → d ∈ l2 → b.seg ≠ d.seg := fun d hd hdl hseg => by
      have := h.owners b hb
      rw [hchain.inj (mem_held.mp hb2).1 hdl hseg] at this
      omega
    refine mem_held.mpr ⟨?_, (mem_held.mp hb).2⟩
    refine mem_map.mpr ⟨b, mem_map.mpr ⟨b, (mem_held.mp hb2).1, ?_⟩, ?_⟩
    · exact if_neg (hother c (hfresh.2 c (by simp)) hcl)
    · exact if_neg (hother e (hfresh.2 e (by simp)) hel)

theorem execAlloc_fresh
    (hchain : Chain mem s.arenaSeg l1) (hfresh : Fresh new l l1) (min max : Nat) :
    ∃ seg mem', execAlloc min max { s.arena with mem } = some (seg, mem') ∧
      ∃ l2, Chain mem' s.arenaSeg l2 ∧
        (seg = 0 ∧ Fresh new l l2 ∨
          ∃ b : Mcb, seg = b.seg + 1 ∧ b.seg < arenaEnd ∧ Fresh (b :: new) l l2) := by
  obtain ⟨seg, mem', hmem', l2, hchain₂, ⟨h0, hheld⟩ | ⟨m, size, hm, hlt, hadds⟩⟩ :=
    execAlloc_spec (g := { s.arena with mem }) hchain h.below min max
  · refine ⟨seg, mem', hmem', l2, hchain₂, .inl ⟨h0, fun b => ?_, hfresh.2⟩⟩
    rw [hheld]
    exact hfresh.1 b
  · exact ⟨seg, mem', hmem', l2, hchain₂, .inr ⟨_, hm, hlt, hfresh.adds rfl hadds⟩⟩

theorem launch_spec (q : Machine.Request) : ∃ ok s', s.launch q = some (ok, s') ∧
    ∃ l', Inv s' l' ∧ ∀ b ∈ held l, b ∈ held l' := by
  rw [Machine.launch]
  by_cases herror : q.error ≠ 0
  · rw [if_pos herror]
    exact ⟨_, _, rfl, l, { h with }, fun _ hb => hb⟩
  rw [if_neg herror]
  cases Machine.inherited q.dups s.proc with
  | none => exact rollback_spec h h.chain .refl 4
  | some handles =>
    obtain ⟨childEnv, mem1, hmem1, l1, hchain₁, ⟨rfl, hfresh₁⟩ | ⟨e, rfl, -, hfresh₁⟩⟩ :=
      execAlloc_fresh h h.chain .refl q.envParas q.envParas
    · rw [show s.arena = { s.arena with mem := s.mem } from rfl, hmem1]
      exact rollback_spec h hchain₁ hfresh₁ 8
    · dsimp only
      rw [show s.arena = { s.arena with mem := s.mem } from rfl, hmem1, bind_some]
      obtain ⟨child, mem2, hmem2, l2, hchain₂, ⟨rfl, hfresh₂⟩ | ⟨c, rfl, hc, hfresh₂⟩⟩ :=
        execAlloc_fresh h hchain₁ hfresh₁ q.minimum q.maximum
      · rw [hmem2]
        exact rollback_spec h hchain₂ hfresh₂ 8
      · rw [hmem2, bind_some]
        by_cases hload : q.loadError ≠ 0
        · rw [if_pos hload]
          exact rollback_spec h hchain₂ hfresh₂ q.loadError
        · rw [if_neg hload]
          exact ⟨_, _, rfl, enter_spec h hchain₂ hfresh₂ hc q.entry handles⟩

theorem Inv.poke {x : Nat} (hx : OffHeaders l x) (v : UInt8) :
    Inv { s with mem := update s.mem x v } l := by
  refine ⟨h.chain.frame_of_mem fun b hb => ?_, h.above, h.below, h.psp, h.parents, h.owners⟩
  have hend := (h.chain.seg_le hb).2
  rw [arenaEnd] at hend
  exact sameHeader_update (by omega) (hx b hb)

theorem Inv.wr16 {seg off : Nat} (h0 : OffHeaders l (lin seg off))
    (h1 : OffHeaders l ((lin seg off + 1) % memSize)) (v : Nat) :
    Inv { s with mem := wr16 seg off v s.mem } l :=
  (h.poke h0 _).poke h1 _

theorem Inv.push16 (hoff : PushesOff l s) (v : Nat) : Inv (s.push16 v) l :=
  (h.wr16 hoff.1 hoff.2 v).congr ⟨rfl, rfl, rfl, rfl⟩

theorem exec_spec {q : Machine.Request} (hk : KeepsOwn s (.exec q)) :
    ∃ s', s.exec q = some s' ∧ ∃ l', Inv s' l' ∧ ∀ b ∈ held l, b ∈ held l' := by
  obtain ⟨ok, s', hs', l', hinv, hsub⟩ := launch_spec h q
  rw [Machine.exec, hs']
  cases ok with
  | false => exact ⟨_, rfl, l', hinv, hsub⟩
  | true =>
    obtain ⟨h1, h2, h3⟩ := hk s' hs' l' hinv.chain
    exact ⟨_, rfl, l', ((hinv.push16 h1 _).push16 h2 _).push16 h3 _, hsub⟩

omit h

theorem Chain.writeLow {a off v : Nat} (h : Chain mem a l) (ha : 16 ≤ a)
    (hoff : off < 255) : Chain (wr16 0 off v mem) a l := by
  refine h.frame_of_mem fun b hb => ?_
  obtain ⟨hlo, hhi⟩ := h.seg_le hb
  have hlim : arenaEnd < 65536 := by decide
  rw [wr16, lin, memSize]
  refine (sameHeader_update (by omega) fun heq => ?_).trans
    (sameHeader_update (by omega) fun heq => ?_)
  · omega
  · omega

theorem Chain.restoreVectors {a : Nat} (h : Chain mem a l) (ha : 16 ≤ a) :
    Chain (Machine.restoreVectors psp mem) a l :=
  (((((h.writeLow ha (by decide)).writeLow ha (by decide)).writeLow ha (by decide)).writeLow ha
    (by decide)).writeLow ha (by decide)).writeLow ha (by decide)

theorem execReturn_spec (h : Inv s l) (hp : s.parents ≠ []) :
    ∃ s', s.execReturn = some s' ∧ ∃ l', Inv s' l' ∧
      held l' = (held l).filter fun b => decide (b.owner ≠ s.proc.psp) := by
  rw [Machine.execReturn]
  cases hparents : s.parents with
  | nil => exact absurd hparents hp
  | cons p parents =>
    have hall := h.parents
    rw [hparents] at hall
    obtain ⟨mem', hmem', l', hchain', hheld⟩ := execRelease_spec
      (g := { s.arena with mem := Machine.restoreVectors s.proc.psp s.mem })
      (h.chain.restoreVectors h.above) h.below s.proc.psp
    dsimp only
    rw [hmem']
    refine ⟨_, rfl, l', ⟨hchain', h.above, h.below, hall p mem_cons_self,
      (forall_mem_cons.mp hall).2, fun b hb => ?_⟩, hheld⟩
    rw [hheld] at hb
    exact h.owners b (mem_filter.mp hb).1

/-! ## Runs -/

theorem handleAlloc_sameArena {fd : Int} {seg off : Nat} :
    SameArena s (s.handleAlloc fd seg off) := by
  rw [Machine.handleAlloc]
  split <;> exact ⟨rfl, rfl, rfl, rfl⟩

theorem dupHandle_sameArena {fd : Int} : SameArena s (s.dupHandle ah fd) := by
  rw [Machine.dupHandle]
  split
  next => exact ⟨rfl, rfl, rfl, rfl⟩
  next =>
    split
    next => exact ⟨rfl, rfl, rfl, rfl⟩
    next =>
      split
      next => exact ⟨rfl, rfl, rfl, rfl⟩
      next => split <;> exact ⟨rfl, rfl, rfl, rfl⟩

theorem step_spec {a : Machine.Action} (h : Inv s l) (ha : Allowed s a) (hk : KeepsOwn s a) :
    ∃ s', s.step a = some s' ∧ ∃ l', Inv s' l' ∧ Stays s a l l' := by
  cases a with
  | memory ah => exact memory_spec h ha hk
  | exec q =>
    obtain ⟨s', hs', l', hinv, hsub⟩ := exec_spec h hk
    exact ⟨s', hs', l', hinv, .of_subset hsub⟩
  | ret =>
    obtain ⟨s', hs', l', hinv, hheld⟩ := execReturn_spec h ha
    refine ⟨s', hs', l', hinv, fun b hb => ?_⟩
    by_cases hb' : b.owner = s.proc.psp
    · exact .inl hb'
    · refine .inr ⟨b, ?_, rfl, rfl⟩
      rw [hheld, mem_filter]
      exact ⟨hb, decide_eq_true hb'⟩
  | handleAlloc fd seg off =>
    exact ⟨_, rfl, l, h.congr handleAlloc_sameArena, .of_subset fun _ hb => hb⟩
  | dupHandle ah fd =>
    exact ⟨_, rfl, l, h.congr dupHandle_sameArena, .of_subset fun _ hb => hb⟩
  | poke x v =>
    exact ⟨_, rfl, l, h.poke (ha l h.chain) v, .of_subset fun _ hb => hb⟩
  | own | setDrive | status =>
    exact ⟨_, rfl, l, h.congr ⟨rfl, rfl, rfl, rfl⟩, .of_subset fun _ hb => hb⟩

theorem Inv.run {s₀ : Machine} (h₀ : ∃ l, Inv s₀ l) (h : Lib.Reached RunStep s₀ s) :
    ∃ l, Inv s l := by
  refine h.invariant (P := fun s => ∃ l, Inv s l) h₀ ?_
  rintro a s s' ⟨l, hinv⟩ ⟨ha, hk, hs⟩
  obtain ⟨s'', hs'', l', hinv', -⟩ := step_spec hinv ha hk
  cases hs.symm.trans hs''
  exact ⟨l', hinv'⟩

end ManiOS.Dos
